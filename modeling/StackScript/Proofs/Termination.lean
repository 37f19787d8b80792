import StackScript.Proofs.Steps

namespace StackScript.Tree

variable {α : Type} {s : Stream}

def Settles (r : Nat → Reader α) (s : Stream) (steps : Nat) : Prop :=
  ∃ reply, reply ≠ .endless ∧ ∀ k, steps ≤ k → r k s = reply

/-- A reply that comes once comes with all greater numbers of steps. -/
theorem Settles.of_ends {r : Nat → Reader α} {steps enough : Nat}
    (h : ∀ k, Refines (r k) (r (k + 1))) (he : Ends s (r steps)) (hle : steps ≤ enough) :
    Settles r s enough := by
  refine ⟨r steps s, he, fun k hk => ?_⟩
  rcases Refines.of_le h (Nat.le_trans hle hk) s with hs | hs
  · exact absurd hs he
  · exact hs

/-- No power is greater than that of a token that only starts an expression. -/
theorem Power.lt_primary_or_not_lt (power : Power) :
    power < .primary ∨ ∀ kind, ¬ power < .ofKind kind := by
  cases power with
  | primary => exact .inr fun kind => by cases kind <;> decide
  | _ => exact .inl (by decide)

/-- Steps in proportion to the tokens left are enough for an expression, however tightly its
surroundings bind. -/
theorem expr_ends {steps : Nat} (power : Power) (ha : awaitsOperand s.last.kind = false)
    (hn : 4 * s.rest.length + 3 ≤ steps) : Ends s (expr steps power) := by
  rcases power.lt_primary_or_not_lt with hp | hp
  · exact (exprsEnd steps).expr ha hp hn
  · obtain ⟨steps, rfl⟩ := Nat.exists_eq_add_of_le' (show 2 ≤ steps by omega)
    have hoperand : Ends s (operand (steps + 1)) := (exprsEnd (steps + 1)).operand ha (by omega)
    refine hoperand.bind_of fun left t _ hclimb => ?_
    rw [climb_stops steps left (hp t.kind)] at hclimb
    cases hclimb

/-- Every reading that starts at this place settles. -/
structure Settled (s : Stream) : Prop where
  stmt : Settles stmt s (4 * s.rest.length + 8)
  body : Settles body s (4 * s.rest.length + 8)
  block : Settles block s (4 * s.rest.length + 8)
  laterArms : Settles laterArms s (4 * s.rest.length + 8)
  definition : s.kind = .kwDef → Settles definition s (4 * s.rest.length + 8)
  parameters : Settles parameters s (4 * s.rest.length + 8)
  expr : ∀ power, Settles (expr · power) s (4 * s.rest.length + 8)
  climb : ∀ power left, Settles (climb · power left) s (4 * s.rest.length + 8)
  arguments : Settles arguments s (4 * s.rest.length + 8)

/-- Every reading settles at every place of a list of tokens, also behind its end, unless the last
token awaits an operand. -/
theorem settled (ha : awaitsOperand s.last.kind = false) : Settled s where
  stmt := .of_ends (fun k => (stmtsRefine k).stmt) ((stmtsEnd _).stmt ha (Nat.le_refl _)) (by omega)
  body := .of_ends (fun k => (stmtsRefine k).body) ((stmtsEnd _).body ha (Nat.le_refl _)) (by omega)
  block :=
    .of_ends (fun k => (stmtsRefine k).block) ((stmtsEnd _).block ha (Nat.le_refl _)) (by omega)
  laterArms :=
    .of_ends (fun k => (stmtsRefine k).laterArms) ((stmtsEnd _).laterArms ha (Nat.le_refl _))
      (Nat.le_refl _)
  definition := fun hk =>
    .of_ends (fun k => (stmtsRefine k).definition) ((stmtsEnd _).definition ha hk (Nat.le_refl _))
      (by omega)
  parameters := .of_ends parameters_refines (parameters_ends (Nat.le_refl _)) (by omega)
  expr := fun power =>
    .of_ends (fun k => (exprsRefine k).expr power) (expr_ends power ha (Nat.le_refl _)) (by omega)
  climb := fun power left =>
    .of_ends (fun k => (exprsRefine k).climb power left)
      ((exprsEnd _).climb left ha (Nat.le_refl _)) (by omega)
  arguments :=
    .of_ends (fun k => (exprsRefine k).arguments) ((exprsEnd _).arguments ha (Nat.le_refl _))
      (by omega)

/-- With more steps than are enough a list is parsed in the same way. -/
theorem script_root_eq_parse (ha : awaitsOperand s.last.kind = false) {steps : Nat}
    (hn : enoughSteps s.rest.length ≤ steps) : (script steps >>= root) s = parse s := by
  have hrefines : Refines (script (enoughSteps s.rest.length) >>= root) (script steps >>= root) :=
    (Refines.of_le script_refines hn).bind fun _ => .refl _
  rcases hrefines s with hs | hs
  · exact absurd hs (parse_ends ha)
  · exact hs

theorem awaitsOperand_eq_false {kind : Token.Kind} (hdash : kind ≠ .dash) (hnot : kind ≠ .kwNot)
    (hopen : kind ≠ .openParen) : awaitsOperand kind = false := by
  unfold awaitsOperand
  split
  · exact absurd rfl hnot
  · exact absurd rfl hdash
  · exact absurd rfl hopen
  · rfl

theorem bind_kind {α : Type} (f : Token.Kind → Reader α) (s : Stream) :
    (Reader.kind >>= f) s = f s.kind s := rfl

/-- An operand that starts with a token after which an operand is awaited is no nearer to its end
than what follows that token. -/
theorem operand_endless {steps : Nat} (ha : awaitsOperand s.kind = true)
    (h : ∀ k < steps, ∀ power, expr k power s.advance = .endless) : operand steps s = .endless := by
  have htake {β : Type} {node : Node.Kind} {power : Power} {k : Nat} (hk : k < steps)
      {f : Node → Node → Reader β} :
      (do f (← Reader.takeLeaf node) (← expr k power) : Reader β) s = .endless := by
    change Reader.bind (expr k power) _ s.advance = _
    rw [Reader.bind, h k hk power]
  have hprefixed {power : Power} {k : Nat} (hk : k < steps) : prefixed k power s = .endless := by
    cases k with
    | zero => rfl
    | succ k => exact htake (Nat.lt_of_succ_lt hk)
  cases steps with
  | zero => rfl
  | succ steps =>
    unfold operand
    rw [bind_kind]
    generalize s.kind = kind at ha ⊢
    cases kind with
    | kwNot | dash => exact hprefixed (Nat.lt_succ_self steps)
    | openParen => exact htake (Nat.lt_succ_self steps)
    | _ => cases ha

theorem expr_endless {steps : Nat} {power : Power} (ha : awaitsOperand s.kind = true)
    (h : ∀ k < steps, ∀ power, expr k power s.advance = .endless) :
    expr steps power s = .endless := by
  cases steps with
  | zero => rfl
  | succ steps =>
    have hoperand := operand_endless ha fun k hk => h k (Nat.lt_succ_of_lt hk)
    change Reader.bind (operand steps) _ s = _
    rw [Reader.bind, hoperand]

/-- Behind the end of a list whose last token awaits an operand, that token is read again and
again. -/
theorem expr_endless_past_end (hs : s.rest = []) (ha : awaitsOperand s.kind = true) (steps : Nat)
    (power : Power) : expr steps power s = .endless := by
  induction steps using Nat.strongRecOn generalizing power with
  | ind steps ih =>
    refine expr_endless ha fun k hk power => ?_
    rw [Stream.advance_past_end hs]
    exact ih k hk power

/-- A single token that awaits an operand has no reply, whatever the number of steps. -/
theorem script_endless {t : Token} (ha : awaitsOperand t.kind = true) (steps : Nat) :
    script steps ⟨[t], t⟩ = .endless := by
  have hexpr (k : Nat) (power : Power) : expr k power ⟨[t], t⟩ = .endless :=
    expr_endless ha fun k _ => expr_endless_past_end (s := ⟨[], t⟩) rfl ha k
  have hexpression (k : Nat) : expression k ⟨[t], t⟩ = .endless := by
    change Reader.bind (expr k .none) _ _ = _
    rw [Reader.bind, hexpr]
  have hstmt (k : Nat) : stmt k ⟨[t], t⟩ = .endless := by
    cases k with
    | zero => rfl
    | succ k =>
      unfold stmt
      rw [bind_kind]
      change awaitsOperand (Stream.kind ⟨[t], t⟩) = true at ha
      generalize Stream.kind ⟨[t], t⟩ = kind at ha ⊢
      cases kind with
      | kwNot | dash | openParen => exact hexpression k
      | _ => cases ha
  cases steps with
  | zero => rfl
  | succ steps =>
    have hmore : Stream.more ⟨[t], t⟩ = true := by
      refine Stream.more_iff.mpr ⟨List.cons_ne_nil t [], fun he => ?_⟩
      change t.kind = .eof at he
      rw [he] at ha
      cases ha
    unfold script
    change (if Stream.more ⟨[t], t⟩ = true then _ else _ : Reader (List Node)) _ = _
    rw [if_pos hmore]
    change Reader.bind (stmt steps) _ _ = _
    rw [Reader.bind, hstmt]

/-- A list that does not end in a token after which an operand is awaited is parsed to a tree or to
a failure, and more steps than parsing takes do not change that. At every place of it, and behind its
end, each reading of statements and expressions comes to a reply within steps in proportion to the
tokens that are left. -/
theorem parse_terminates {tokens : List Token} (hne : tokens ≠ [])
    (hlast : ∀ t ∈ tokens.getLast?, t.kind ≠ .dash ∧ t.kind ≠ .kwNot ∧ t.kind ≠ .openParen) :
    ∃ s, Stream.ofTokens? tokens = some s ∧
      ((∃ tree t, parse s = .ok tree t) ∨ ∃ why t, parse s = .failed why t) ∧
      (∀ steps, enoughSteps tokens.length ≤ steps → (script steps >>= root) s = parse s) ∧
      ∀ t : Stream, t.last = s.last → Settled t := by
  obtain ⟨last, hmem⟩ : ∃ last, tokens.getLast? = some last :=
    ⟨_, List.getLast?_eq_some_getLast hne⟩
  obtain ⟨hdash, hnot, hopen⟩ := hlast last hmem
  have ha := awaitsOperand_eq_false hdash hnot hopen
  refine ⟨⟨tokens, last⟩, by rw [Stream.ofTokens?, hmem]; rfl, ?_, fun steps hn => ?_, ?_⟩
  · cases hreply : parse ⟨tokens, last⟩ with
    | ok tree t => exact .inl ⟨tree, t, rfl⟩
    | failed why t => exact .inr ⟨why, t, rfl⟩
    | endless => exact absurd hreply (parse_ends ha)
  · exact script_root_eq_parse ha hn
  · intro t hlast
    exact settled (by rw [hlast]; exact ha)

/-- A list without an end mark, whose last token is read as an operand and then refused behind it;
with `not` in its place no number of steps is enough. -/
theorem parse_terminates_unmarked :
    (∃ s, Stream.ofTokens? [⟨.identifier, "f", ⟨0, 1, "f"⟩⟩, ⟨.openParen, "(", ⟨1, 2, "f"⟩⟩,
        ⟨.identifier, "x", ⟨2, 3, "f"⟩⟩] = some s ∧
      (∃ t, parse s = .failed ⟨.unexpectedToken "x", ⟨2, "f"⟩⟩ t) ∧
      ∀ t : Stream, t.last = s.last → Settled t) ∧
    ∀ steps, script steps ⟨[⟨.kwNot, "not", ⟨0, 3, "f"⟩⟩], ⟨.kwNot, "not", ⟨0, 3, "f"⟩⟩⟩ =
      .endless := by
  refine ⟨?_, script_endless rfl⟩
  generalize htokens : [Token.mk .identifier "f" ⟨0, 1, "f"⟩, ⟨.openParen, "(", ⟨1, 2, "f"⟩⟩,
    ⟨.identifier, "x", ⟨2, 3, "f"⟩⟩] = tokens
  have hlast : ∀ t ∈ tokens.getLast?, t.kind ≠ .dash ∧ t.kind ≠ .kwNot ∧ t.kind ≠ .openParen := by
    subst htokens
    rintro t ⟨⟩
    decide
  obtain ⟨s, hs, -, -, hsettled⟩ := parse_terminates (htokens ▸ List.cons_ne_nil _ _) hlast
  refine ⟨s, hs, ?_, hsettled⟩
  subst htokens
  cases hs
  exact ⟨_, rfl⟩

end StackScript.Tree
