import StackScript.Proofs.FormLexemes

namespace StackScript.Form

open Text (byteLength slice?)

/-- How many parentheses are open behind lexemes, if there are `depth` before them and each closing
one closes one of them. -/
def openBehind (depth : Nat) : List Lexeme → Option Nat
  | [] => some depth
  | .opening :: ls => openBehind (depth + 1) ls
  | .closing :: ls =>
    match depth with
    | 0 => none
    | depth + 1 => openBehind depth ls
  | _ :: ls => openBehind depth ls

def Balanced (ls : List Lexeme) : Prop := openBehind 0 ls = some 0

def Matched (ls : List Lexeme) : Prop := openBehind 0 ls ≠ none

theorem openBehind_append (depth : Nat) (ls ms : List Lexeme) :
    openBehind depth (ls ++ ms) = openBehind depth ls >>= (openBehind · ms) := by
  induction ls generalizing depth with
  | nil => rfl
  | cons l ls ih =>
    cases l with
    | opening => exact ih (depth + 1)
    | closing =>
      cases depth with
      | zero => rfl
      | succ depth => exact ih depth
    | _ => exact ih depth

/-- Lexemes from an offset on, and the forms they nest into. -/
inductive Nests : Nat → List Lexeme → List Form → Prop
  | nil {offset : Nat} : Nests offset [] []
  | gap {offset : Nat} {l : Lexeme} {ls : List Lexeme} {fs : List Form} (gap : l.piece = .gap)
      (more : Nests (offset + byteLength l.text) ls fs) : Nests offset (l :: ls) fs
  | atom {offset : Nat} {l : Lexeme} {ls : List Lexeme} {fs : List Form} (atom : l.piece = .atom)
      (more : Nests (offset + byteLength l.text) ls fs) :
      Nests offset (l :: ls) (.atom offset (String.ofList l.text) :: fs)
  | list {offset : Nat} {inner ls : List Lexeme} {items fs : List Form}
      (inside : Nests (offset + 1) inner items)
      (more : Nests (offset + 1 + byteLength (spelling inner) + 1) ls fs) :
      Nests offset (.opening :: inner ++ .closing :: ls) (.list offset items :: fs)

theorem byteLength_opening : byteLength Lexeme.opening.text = 1 := by decide

theorem byteLength_closing : byteLength Lexeme.closing.text = 1 := by decide

theorem byteLength_list (inner ls : List Lexeme) :
    byteLength (spelling (.opening :: inner ++ .closing :: ls)) =
      1 + byteLength (spelling inner) + 1 + byteLength (spelling ls) := by
  simp only [spelling_append, spelling_cons, Text.byteLength_append, byteLength_opening,
    byteLength_closing, List.cons_append]
  omega

theorem Nests.append {offset : Nat} {ls ms : List Lexeme} {fs gs : List Form}
    (h : Nests offset ls fs) (h' : Nests (offset + byteLength (spelling ls)) ms gs) :
    Nests offset (ls ++ ms) (fs ++ gs) := by
  induction h with
  | nil => exact h'
  | gap gap _ ih =>
    refine .gap gap (ih ?_)
    rwa [spelling_cons, Text.byteLength_append, ← Nat.add_assoc] at h'
  | atom atom _ ih =>
    refine .atom atom (ih ?_)
    rwa [spelling_cons, Text.byteLength_append, ← Nat.add_assoc] at h'
  | @list offset inner ls items fs inside _ _ ih =>
    rw [List.append_assoc, List.cons_append]
    refine .list inside (ih ?_)
    rwa [byteLength_list, ← Nat.add_assoc, ← Nat.add_assoc, ← Nat.add_assoc] at h'

theorem openBehind_cons_of_flat {l : Lexeme} (h : l.piece = .gap ∨ l.piece = .atom) (depth : Nat)
    (ls : List Lexeme) : openBehind depth (l :: ls) = openBehind depth ls := by
  cases l with
  | opening => rcases h with h | h <;> cases h
  | closing => rcases h with h | h <;> cases h
  | _ => rfl

/-- Nested lexemes close what they open. -/
theorem Nests.openBehind_eq {offset : Nat} {ls : List Lexeme} {fs : List Form}
    (h : Nests offset ls fs) (depth : Nat) : openBehind depth ls = some depth := by
  induction h generalizing depth with
  | nil => rfl
  | gap gap _ ih => rw [openBehind_cons_of_flat (.inl gap), ih]
  | atom atom _ ih => rw [openBehind_cons_of_flat (.inr atom), ih]
  | @list offset inner ls items fs _ _ ihin ih =>
    rw [List.cons_append]
    change openBehind (depth + 1) (inner ++ .closing :: ls) = some depth
    rw [openBehind_append, ihin]
    exact ih depth

/-- The reader adds the forms of nested lexemes, whatever is open. -/
theorem Nests.takeAll_eq {offset : Nat} {ls : List Lexeme} {fs : List Form}
    (h : Nests offset ls fs) (r : Reading) : r.takeAll offset ls = .ok (r.addAll fs) := by
  induction h generalizing r with
  | nil => rfl
  | @gap offset l ls fs gap _ ih =>
    simp only [Reading.takeAll, gap]
    exact ih r
  | @atom offset l ls fs atom _ ih =>
    simp only [Reading.takeAll, atom]
    exact ih _
  | @list offset inner ls items fs _ _ ihin ih =>
    -- The list is open while its items are taken, and one of the reader's forms behind them.
    have hopen : (r.opening offset).opens = ⟨offset, []⟩ :: r.opens := rfl
    have hinner := ihin (r.opening offset)
    rw [Reading.addAll_open hopen, List.append_nil] at hinner
    rw [List.cons_append, Reading.takeAll, byteLength_opening]
    change (r.opening offset).takeAll (offset + 1) (inner ++ .closing :: ls) = _
    rw [Reading.takeAll_append, hinner]
    change (r.add (.list offset items.reverse.reverse)).takeAll
      (offset + 1 + byteLength (spelling inner) + 1) ls = _
    rw [List.reverse_reverse]
    exact ih _

/-- The reading behind lexemes from an offset on, of which no closing parenthesis is without an
opening one. -/
inductive Leaves (offset : Nat) : List Lexeme → Reading → Prop
  | done {ls : List Lexeme} {fs : List Form} (nested : Nests offset ls fs) :
      Leaves offset ls ⟨[], fs.reverse⟩
  | opened {before inner : List Lexeme} {r : Reading} {fs : List Form}
      (around : Leaves offset before r)
      (nested : Nests (offset + byteLength (spelling before) + 1) inner fs) :
      Leaves offset (before ++ .opening :: inner)
        ⟨⟨offset + byteLength (spelling before), fs.reverse⟩ :: r.opens, r.done⟩

namespace Leaves

variable {offset : Nat} {ls : List Lexeme} {r : Reading}

theorem append (h : Leaves offset ls r) {ms : List Lexeme} {fs : List Form}
    (h' : Nests (offset + byteLength (spelling ls)) ms fs) :
    Leaves offset (ls ++ ms) (r.addAll fs) := by
  cases h with
  | done nested =>
    rw [Reading.addAll_done rfl, ← List.reverse_append]
    exact .done (nested.append h')
  | opened around nested =>
    rw [Reading.addAll_open rfl, List.append_assoc, List.cons_append]
    dsimp only
    rw [← List.reverse_append]
    refine .opened around (nested.append ?_)
    rw [spelling_append, spelling_cons, Text.byteLength_append, Text.byteLength_append,
      byteLength_opening] at h'
    rwa [Nat.add_assoc, Nat.add_assoc]

theorem openBehind_eq (h : Leaves offset ls r) : openBehind 0 ls = some r.opens.length := by
  induction h with
  | done nested => exact nested.openBehind_eq 0
  | opened _ nested ih =>
    rw [openBehind_append, ih]
    exact nested.openBehind_eq _

/-- One more lexeme is taken, unless it closes what is not open. -/
theorem step (h : Leaves offset ls r) (l : Lexeme) :
    (∃ r', r.take (offset + byteLength (spelling ls)) l.piece l.text = .ok r' ∧
      Leaves offset (ls ++ [l]) r') ∨
    l = .closing ∧ (∃ fs, Nests offset ls fs) ∧
      r.take (offset + byteLength (spelling ls)) l.piece l.text =
        .error ⟨.unbalancedClose, offset + byteLength (spelling ls)⟩ := by
  cases l with
  | blank c => exact .inl ⟨r, rfl, h.append (.gap rfl .nil)⟩
  | comment body => exact .inl ⟨r, rfl, h.append (.gap rfl .nil)⟩
  | quoted body => exact .inl ⟨_, rfl, h.append (.atom rfl .nil)⟩
  | bare cs => exact .inl ⟨_, rfl, h.append (.atom rfl .nil)⟩
  | opening => exact .inl ⟨_, rfl, .opened h .nil⟩
  | closing =>
    cases h with
    | done nested => exact .inr ⟨rfl, ⟨_, nested⟩, rfl⟩
    | @opened before inner r fs around nested =>
      refine .inl ⟨_, rfl, ?_⟩
      have hlist := around.append (.list nested .nil)
      rw [List.append_assoc, List.cons_append, List.reverse_reverse]
      exact hlist

/-- Lexemes are taken one after the other, up to one that closes what is not open. -/
theorem run (h : Leaves offset ls r) (ms : List Lexeme) :
    (∃ r', r.takeAll (offset + byteLength (spelling ls)) ms = .ok r' ∧
      Leaves offset (ls ++ ms) r') ∨
    ∃ before after fs, ls ++ ms = before ++ .closing :: after ∧ Nests offset before fs ∧
      r.takeAll (offset + byteLength (spelling ls)) ms =
        .error ⟨.unbalancedClose, offset + byteLength (spelling before)⟩ := by
  induction ms generalizing ls r with
  | nil =>
    refine .inl ⟨r, rfl, ?_⟩
    rwa [List.append_nil]
  | cons l ms ih =>
    have hsize : offset + byteLength (spelling (ls ++ [l])) =
        offset + byteLength (spelling ls) + byteLength l.text := by
      simp only [spelling_append, spelling_cons, spelling_nil, List.append_nil,
        Text.byteLength_append, Nat.add_assoc]
    rw [Reading.takeAll]
    rcases h.step l with ⟨r', htake, h'⟩ | ⟨rfl, ⟨fs, hfs⟩, htake⟩
    · have hrest := ih h'
      rw [hsize, List.append_assoc, List.singleton_append] at hrest
      rw [htake]
      exact hrest
    · rw [htake]
      exact .inr ⟨ls, ms, fs, rfl, hfs, rfl⟩

end Leaves

/-- Lexemes on their own are taken up to one that closes what is not open. -/
theorem takeAll_cases (offset : Nat) (ls : List Lexeme) :
    (∃ r, Reading.takeAll ⟨[], []⟩ offset ls = .ok r ∧ Leaves offset ls r) ∨
    ∃ before after fs, ls = before ++ .closing :: after ∧ Nests offset before fs ∧
      Reading.takeAll ⟨[], []⟩ offset ls =
        .error ⟨.unbalancedClose, offset + byteLength (spelling before)⟩ := by
  have hstart : Leaves offset [] ⟨[], []⟩ := .done .nil
  exact hstart.run ls

/-- Lexemes nest into forms exactly if their parentheses are balanced. -/
theorem balanced_iff_nests (offset : Nat) (ls : List Lexeme) :
    Balanced ls ↔ ∃ fs, Nests offset ls fs := by
  constructor
  · intro h
    rcases takeAll_cases offset ls with ⟨r, _, hr⟩ | ⟨before, after, fs, rfl, hfs, _⟩
    · have hopens := hr.openBehind_eq.symm.trans h
      cases hr with
      | done nested => exact ⟨_, nested⟩
      | opened => cases hopens
    · rw [Balanced, openBehind_append, hfs.openBehind_eq] at h
      cases h
  · rintro ⟨fs, hfs⟩
    exact hfs.openBehind_eq 0

/-- Without a closing parenthesis too many, all lexemes are taken. -/
theorem Matched.takeAll {ls : List Lexeme} (h : Matched ls) (offset : Nat) :
    ∃ r, Reading.takeAll ⟨[], []⟩ offset ls = .ok r ∧ Leaves offset ls r := by
  rcases takeAll_cases offset ls with hr | ⟨before, after, fs, rfl, hfs, _⟩
  · exact hr
  · rw [Matched, openBehind_append, hfs.openBehind_eq] at h
    exact absurd rfl h

theorem Leaves.matched {offset : Nat} {ls : List Lexeme} {r : Reading} (h : Leaves offset ls r) :
    Matched ls := by
  rw [Matched, h.openBehind_eq]
  exact Option.some_ne_none _

/-- A bare atom before lexemes is one of its own or the start of their first. -/
theorem Lexes.cons_bare {cs atom : List Char} {ls : List Lexeme} (h : Lexes cs ls [])
    (hatom : (Lexeme.bare atom).Legal) :
    ∃ ms, Lexes (atom ++ cs) ms [] ∧ ∀ depth, openBehind depth ms = openBehind depth ls := by
  by_cases hnext : ∃ other ns, ls = .bare other :: ns
  · obtain ⟨other, ns, rfl⟩ := hnext
    cases h with
    | cons legal ends more =>
      have hboth : (Lexeme.bare (atom ++ other)).Legal := by
        refine ⟨List.append_ne_nil_of_left_ne_nil hatom.1 other, fun c hc => ?_⟩
        rcases List.mem_append.mp hc with hc | hc
        · exact hatom.2 c hc
        · exact legal.2 c hc
      have hlexes := Lexes.cons hboth ends more
      rw [Lexeme.text, List.append_assoc] at hlexes
      exact ⟨_, hlexes, fun _ => rfl⟩
  · refine ⟨.bare atom :: ls, .cons hatom ?_ h, fun _ => rfl⟩
    have htail := h.spells
    have hspells : Spells (spelling (.bare atom :: ls)) (.bare atom :: ls) := by
      refine ⟨rfl, List.forall_mem_cons.mpr ⟨hatom, htail.legal⟩, ?_⟩
      cases ls with
      | nil => exact .singleton _
      | cons l ls => exact .cons_cons (fun _ hc => by cases hc) htail.comments
    rw [htail.text]
    refine hspells.ends fun _ other _ hother => hnext ?_
    obtain ⟨ns, hns⟩ := List.head?_eq_some_iff.mp hother
    exact ⟨other, ns, hns⟩

/-- Bare atoms that stand next to each other are one atom, and no parenthesis is lost. -/
theorem Spells.exists_lexes {cs : List Char} {ls : List Lexeme} (h : Spells cs ls) :
    ∃ ms, Lexes cs ms [] ∧ ∀ depth, openBehind depth ms = openBehind depth ls := by
  induction ls generalizing cs with
  | nil =>
    rw [h.text]
    exact ⟨[], .nil [], fun _ => rfl⟩
  | cons l ls ih =>
    have hl := h.legal l List.mem_cons_self
    obtain ⟨ms, hms, hdepth⟩ := ih h.tail
    rw [h.text, spelling_cons]
    by_cases hbare : ∃ atom, l = .bare atom
    · obtain ⟨atom, rfl⟩ := hbare
      obtain ⟨ns, hns, hsame⟩ := hms.cons_bare hl
      exact ⟨ns, hns, fun depth => (hsame depth).trans (hdepth depth)⟩
    · refine ⟨l :: ms, .cons hl (h.ends fun a _ ha => absurd ⟨a, ha⟩ hbare) hms, fun depth => ?_⟩
      have hsplit (ks : List Lexeme) :
          openBehind depth (l :: ks) = openBehind depth [l] >>= (openBehind · ks) :=
        openBehind_append depth [l] ks
      simp only [hsplit ms, hsplit ls, hdepth]

/-- The text of an atom stands at its offset, and at that of a list its opening parenthesis; so for
the items of the list. -/
inductive Placed (cs : List Char) : Form → Prop
  | atom {offset : Nat} {text : String}
      (stands : slice? cs offset (offset + byteLength text.toList) = some text.toList) :
      Placed cs (.atom offset text)
  | list {offset : Nat} {items : List Form} (opens : slice? cs offset (offset + 1) = some ['('])
      (inside : ∀ item ∈ items, Placed cs item) : Placed cs (.list offset items)

inductive Narrow : Form → Prop
  | atom {offset : Nat} {text : String} (small : offset < 4294967296) : Narrow (.atom offset text)
  | list {offset : Nat} {items : List Form} (small : offset < 4294967296)
      (inside : ∀ item ∈ items, Narrow item) : Narrow (.list offset items)

theorem Placed.narrow {cs : List Char} {f : Form} (h : Placed cs f) (hshort : Text.Short cs) :
    f.Narrow := by
  induction h with
  | atom stands => exact .atom (Nat.lt_of_le_of_lt (Text.le_byteLength_of_slice? stands) hshort)
  | list opens _ ih => exact .list (Nat.lt_of_le_of_lt (Text.le_byteLength_of_slice? opens) hshort) ih

/-- The forms of a text stand where their offsets say. -/
theorem Nests.placed {offset : Nat} {ls : List Lexeme} {fs : List Form} (h : Nests offset ls fs)
    (before after : List Char) (hbefore : byteLength before = offset) :
    ∀ f ∈ fs, Placed (before ++ (spelling ls ++ after)) f := by
  induction h generalizing before after with
  | nil => simp
  | @gap offset l ls fs _ _ ih =>
    have hmore := ih (before ++ l.text) after (by rw [Text.byteLength_append, hbefore])
    rwa [List.append_assoc, ← List.append_assoc l.text, ← spelling_cons] at hmore
  | @atom offset l ls fs _ _ ih =>
    have hmore := ih (before ++ l.text) after (by rw [Text.byteLength_append, hbefore])
    rw [List.append_assoc, ← List.append_assoc l.text, ← spelling_cons] at hmore
    refine List.forall_mem_cons.mpr ⟨.atom ?_, hmore⟩
    rw [String.toList_ofList, spelling_cons, List.append_assoc, ← List.append_assoc, ← hbefore]
    exact Text.slice?_append before l.text (spelling ls ++ after)
  | @list offset inner ls items fs _ _ ihin ih =>
    have htext : spelling (.opening :: inner ++ .closing :: ls) ++ after =
        ['('] ++ (spelling inner ++ ([')'] ++ (spelling ls ++ after))) := by
      simp [Lexeme.text]
    have hopening : byteLength (before ++ ['(']) = offset + 1 := by
      rw [Text.byteLength_append, hbefore]
      rfl
    have hclosing : byteLength (before ++ ['('] ++ spelling inner ++ [')']) =
        offset + 1 + byteLength (spelling inner) + 1 := by
      rw [Text.byteLength_append, Text.byteLength_append, hopening]
      rfl
    have hitems := ihin (before ++ ['(']) ([')'] ++ (spelling ls ++ after)) hopening
    have hmore := ih (before ++ ['('] ++ spelling inner ++ [')']) after hclosing
    simp only [List.append_assoc] at hitems hmore
    rw [htext]
    refine List.forall_mem_cons.mpr ⟨.list ?_ hitems, hmore⟩
    rw [← List.append_assoc, ← hbefore]
    exact Text.slice?_append before ['('] _

inductive Writes : List Lexeme → List Sexp → Prop
  | nil : Writes [] []
  | gap {l : Lexeme} {ls : List Lexeme} {xs : List Sexp} (gap : l.piece = .gap)
      (more : Writes ls xs) : Writes (l :: ls) xs
  | atom {l : Lexeme} {ls : List Lexeme} {xs : List Sexp} (atom : l.piece = .atom)
      (more : Writes ls xs) : Writes (l :: ls) (.atom (String.ofList l.text) :: xs)
  | list {inner ls : List Lexeme} {items xs : List Sexp} (inside : Writes inner items)
      (more : Writes ls xs) : Writes (.opening :: inner ++ .closing :: ls) (.list items :: xs)

theorem Writes.nests {ls : List Lexeme} {xs : List Sexp} (h : Writes ls xs) (offset : Nat) :
    ∃ fs, Nests offset ls fs ∧ plainAll fs = xs := by
  induction h generalizing offset with
  | nil => exact ⟨[], .nil, rfl⟩
  | gap gap _ ih =>
    obtain ⟨fs, hfs, hplain⟩ := ih _
    exact ⟨fs, .gap gap hfs, hplain⟩
  | atom atom _ ih =>
    obtain ⟨fs, hfs, hplain⟩ := ih _
    exact ⟨_, .atom atom hfs, by rw [plainAll, hplain, plain]⟩
  | list _ _ ihin ih =>
    obtain ⟨items, hitems, hinner⟩ := ihin (offset + 1)
    obtain ⟨fs, hfs, hplain⟩ := ih _
    exact ⟨_, .list hitems hfs, by rw [plainAll, hplain, plain, hinner]⟩

inductive Fails (cs : List Char) : LoadError → Prop
  | stray {ls : List Lexeme} {c : Char} {rest : List Char} (lexes : Lexes cs ls (c :: rest))
      (stuck : Stuck (c :: rest)) (matched : Matched ls) :
      Fails cs ⟨.unexpectedCharacter c, byteLength (spelling ls)⟩
  | unmatched {ls : List Lexeme} {rest : List Char} (lexes : Lexes cs ls (')' :: rest))
      (balanced : Balanced ls) : Fails cs ⟨.unbalancedClose, byteLength (spelling ls)⟩
  | unclosed {before inner : List Lexeme} (lexes : Lexes cs (before ++ .opening :: inner) [])
      (matched : Matched before) (balanced : Balanced inner) :
      Fails cs ⟨.unclosedOpen, byteLength (spelling before)⟩

/-- The reader gives the forms that the lexemes of a text nest into. -/
theorem Lexes.readFrom_ok {cs : List Char} {ls : List Lexeme} {fs : List Form}
    (h : Lexes cs ls []) (hfs : Nests 0 ls fs) : readFrom ⟨[], []⟩ 0 cs = .ok fs := by
  rw [h.readFrom_eq, hfs.takeAll_eq, Reading.addAll_done rfl]
  change readFrom _ _ [] = _
  rw [readFrom]
  simp [Reading.finish]

/-- The reader fails where a text does. -/
theorem Fails.readFrom_error {cs : List Char} {e : LoadError} (h : Fails cs e) :
    readFrom ⟨[], []⟩ 0 cs = .error e := by
  cases h with
  | stray lexes stuck matched =>
    obtain ⟨r, hr, _⟩ := matched.takeAll 0
    rw [lexes.readFrom_eq, hr, Nat.zero_add]
    exact readFrom_stuck stuck _ _
  | unmatched lexes balanced =>
    obtain ⟨fs, hfs⟩ := (balanced_iff_nests 0 _).mp balanced
    rw [lexes.readFrom_eq, hfs.takeAll_eq, Reading.addAll_done rfl, Nat.zero_add]
    exact Lexeme.readFrom_eq (l := .closing) trivial trivial _ _
  | @unclosed before inner lexes matched balanced =>
    obtain ⟨r, hr, _⟩ := matched.takeAll 0
    obtain ⟨fs, hfs⟩ := (balanced_iff_nests (byteLength (spelling before) + 1) inner).mp balanced
    rw [lexes.readFrom_eq, Reading.takeAll_append, hr, Nat.zero_add]
    change (Reading.takeAll (r.opening _) _ inner >>= _) = _
    have hopen : (r.opening (byteLength (spelling before))).opens =
        ⟨byteLength (spelling before), []⟩ :: r.opens := rfl
    rw [byteLength_opening, hfs.takeAll_eq, Reading.addAll_open hopen]
    change readFrom _ _ [] = _
    rw [readFrom]
    rfl

/-- The lexemes of a text nest into forms, unless it fails. -/
theorem nests_or_fails (cs : List Char) :
    (∃ ls fs, Lexes cs ls [] ∧ Nests 0 ls fs) ∨ ∃ e, Fails cs e := by
  obtain ⟨ls, rest, hlexes, hrest⟩ := exists_lexes cs
  rcases takeAll_cases 0 ls with ⟨r, _, hr⟩ | ⟨before, after, fs, rfl, hfs, _⟩
  -- Only here it matters whether the lexemes go up to the end of the text.
  · rcases hrest with rfl | hstuck
    · cases hr with
      | done nested => exact .inl ⟨ls, _, hlexes, nested⟩
      | opened around nested =>
        exact .inr ⟨_, .unclosed hlexes around.matched ((balanced_iff_nests _ _).mpr ⟨_, nested⟩)⟩
    · cases rest with
      | nil => exact absurd rfl hstuck.1
      | cons c rest => exact .inr ⟨_, .stray hlexes hstuck hr.matched⟩
  · exact .inr ⟨_, .unmatched hlexes.split.1 ((balanced_iff_nests _ _).mpr ⟨_, hfs⟩)⟩

/-- The reader succeeds exactly with the forms that the lexemes of a text nest into. -/
theorem read_eq_ok_iff (text : String) (fs : List Form) :
    read text = .ok fs ↔ ∃ ls, Lexes text.toList ls [] ∧ Nests 0 ls fs := by
  constructor
  · intro h
    rcases nests_or_fails text.toList with ⟨ls, gs, hls, hgs⟩ | ⟨e, he⟩
    · rw [read, hls.readFrom_ok hgs] at h
      cases h
      exact ⟨ls, hls, hgs⟩
    · rw [read, he.readFrom_error] at h
      cases h
  · rintro ⟨ls, hls, hfs⟩
    exact hls.readFrom_ok hfs

theorem read_placed {text : String} {fs : List Form} (h : read text = .ok fs) :
    ∀ f ∈ fs, Placed text.toList f := by
  obtain ⟨ls, hls, hnests⟩ := (read_eq_ok_iff text fs).mp h
  have hplaced := hnests.placed [] [] rfl
  rwa [List.nil_append, ← hls.eq_spelling] at hplaced

/-- A text fails at one of its places. -/
theorem Fails.offset_le {cs : List Char} {e : LoadError} (h : Fails cs e) :
    e.offset ≤ byteLength cs := by
  cases h with
  | stray lexes | unmatched lexes =>
    rw [lexes.eq_spelling, Text.byteLength_append]
    exact Nat.le_add_right _ _
  | unclosed lexes =>
    rw [lexes.eq_spelling, spelling_append, Text.byteLength_append, Text.byteLength_append, Nat.add_assoc]
    exact Nat.le_add_right _ _

/-- The reader fails exactly where a text does. -/
theorem read_eq_error_iff (text : String) (e : LoadError) :
    read text = .error e ↔ Fails text.toList e := by
  constructor
  · intro h
    rcases nests_or_fails text.toList with ⟨ls, fs, hls, hfs⟩ | ⟨e', he'⟩
    · rw [read, hls.readFrom_ok hfs] at h
      cases h
    · rw [read, he'.readFrom_error] at h
      cases h
      exact he'
  · exact Fails.readFrom_error

/-- The reader of forms is exact. It succeeds on the sequences of lexemes with balanced parentheses
and gives the forms that the lexemes of the text nest into, each at its place. What writes forms down
without two bare atoms right behind each other is read back to them. It fails at the first closing
parenthesis without an opening one or the first place where no lexeme starts, or else at the last
opening parenthesis that stays open. The offsets of a short text fit in 32 bits. -/
theorem read_exact (text : String) :
    ((∃ fs, read text = .ok fs) ↔ ∃ ls, Spells text.toList ls ∧ Balanced ls) ∧
    (∀ fs, read text = .ok fs ↔ ∃ ls, Lexes text.toList ls [] ∧ Nests 0 ls fs) ∧
    (∀ fs, read text = .ok fs → ∀ f ∈ fs, Placed text.toList f) ∧
    (∀ ls xs, Spells text.toList ls → Separated ls → Writes ls xs →
      ∃ fs, read text = .ok fs ∧ plainAll fs = xs) ∧
    (∀ e, read text = .error e ↔ Fails text.toList e) ∧
    (Text.Short text.toList → (∀ fs, read text = .ok fs → ∀ f ∈ fs, f.Narrow) ∧
      ∀ e, read text = .error e → e.offset < 4294967296) := by
  have hok := read_eq_ok_iff text
  refine ⟨⟨?_, ?_⟩, hok, fun _ => read_placed, ?_, read_eq_error_iff text, fun hshort => ⟨?_, ?_⟩⟩
  · rintro ⟨fs, hfs⟩
    obtain ⟨ls, hls, hnests⟩ := (hok fs).mp hfs
    exact ⟨ls, hls.spells, (balanced_iff_nests 0 ls).mpr ⟨fs, hnests⟩⟩
  · rintro ⟨ls, hls, hbalanced⟩
    obtain ⟨ms, hms, hsame⟩ := hls.exists_lexes
    obtain ⟨fs, hfs⟩ := (balanced_iff_nests 0 ms).mp ((hsame 0).trans hbalanced)
    exact ⟨fs, (hok fs).mpr ⟨ms, hms, hfs⟩⟩
  · intro ls xs hls hseparated hwrites
    obtain ⟨fs, hfs, hplain⟩ := hwrites.nests 0
    exact ⟨fs, (hok fs).mpr ⟨ls, hls.lexes hseparated, hfs⟩, hplain⟩
  · intro fs hfs f hf
    exact (read_placed hfs f hf).narrow hshort
  · intro e he
    exact Nat.lt_of_le_of_lt ((read_eq_error_iff text e).mp he).offset_le hshort

/-- A comment keeps two atoms apart, and a semicolon on its own fails. -/
theorem read_exact_comment :
    (∃ fs, read "(a;;(\nb\"c\")" = .ok fs ∧
      plainAll fs = [.list [.atom "a", .atom "b", .atom "\"c\""]]) ∧
    read "(a;b" = .error ⟨.unexpectedCharacter ';', 2⟩ := by
  constructor
  · refine (read_exact "(a;;(\nb\"c\")").2.2.2.1
      [.opening, .bare ['a'], .comment ['('], .blank '\n', .bare ['b'], .quoted ['c'], .closing]
      _ ⟨by decide +kernel, ?_, ?_⟩ ?_ ?_
    · simp [Lexeme.Legal, isBlank, isBare]
    · simp
    · simp [Separated]
    · exact .list (.atom rfl (.gap rfl (.gap rfl (.atom rfl (.atom rfl .nil))))) .nil
  · have hopening : Lexeme.opening.Legal ∧ Lexeme.opening.Ends ['a', ';', 'b'] := ⟨trivial, trivial⟩
    have hatom : (Lexeme.bare ['a']).Legal ∧ (Lexeme.bare ['a']).Ends [';', 'b'] := by
      simp [Lexeme.Legal, Lexeme.Ends, isBlank, isBare]
    have hlexes : Lexes "(a;b".toList [.opening, .bare ['a']] [';', 'b'] :=
      .cons hopening.1 hopening.2 (.cons hatom.1 hatom.2 (.nil _))
    exact ((read_exact "(a;b").2.2.2.2.1 _).mpr
      (.stray hlexes (stuck_semicolon (by simp)) (by simp [Matched, openBehind]))

end StackScript.Form
