import StackScript.Proofs.Printing

namespace StackScript

structure Token.Word where
  kind : Token.Kind
  text : String
  deriving DecidableEq, Repr

def Token.word (t : Token) : Token.Word := ⟨t.kind, t.value⟩

namespace Token.Word

def fixed (kind : Token.Kind) : Word := ⟨kind, kind.spelling?.getD ""⟩

def name (text : String) : Word := ⟨.identifier, text⟩

def newline : Word := ⟨.newline, "\n"⟩

def indent : Word := ⟨.indent, "<indent>"⟩

def dedent : Word := ⟨.dedent, "<dedent>"⟩

def grouped (inside : Bool) (ws : List Word) : List Word :=
  if inside then fixed .openParen :: (ws ++ [fixed .closeParen]) else ws

def body (ws : List Word) : List Word := fixed .colon :: newline :: indent :: (ws ++ [dedent])

end Token.Word

open Token.Word (fixed grouped)

def UnaryOp.kind : UnaryOp → Token.Kind
  | neg => .dash
  | not => .kwNot

def BinaryOp.kind : BinaryOp → Token.Kind
  | add => .plus
  | sub => .dash
  | mul => .star
  | floorDiv => .slashSlash
  | mod => .percent
  | lt => .less
  | le => .lessEquals
  | gt => .greater
  | ge => .greaterEquals
  | eq => .equals
  | ne => .notEquals
  | is => .kwIs

def Ty.word : Ty → Token.Word
  | int => .name "int"
  | bool => .name "bool"
  | none | void => fixed .kwNone

mutual

def Expr.words : Expr → List Token.Word
  | .noneLit _ => [fixed .kwNone]
  | .boolLit _ value => [fixed (if value then .kwTrue else .kwFalse)]
  | .intLit _ value => [⟨.number, Text.decimal value⟩]
  | .var _ name => [.name name]
  | .unary _ op operand => fixed op.kind :: grouped (operand.level < op.level) operand.words
  | .binary _ op left right =>
    grouped (left.level < op.level) left.words ++
      fixed op.kind :: grouped (right.level ≤ op.level) right.words
  | .call _ callee args => .name callee :: fixed .openParen :: Expr.argWords args
  | .print _ arg => .name "print" :: fixed .openParen :: (arg.words ++ [fixed .closeParen])

def Expr.argWords : List Expr → List Token.Word
  | [] => [fixed .closeParen]
  | [last] => last.words ++ [fixed .closeParen]
  | e :: es => e.words ++ fixed .comma :: argWords es

end

def Param.words (p : Param) : List Token.Word := [.name p.name, fixed .colon, p.type.word]

def Param.allWords : List Param → List Token.Word
  | [] => [fixed .closeParen]
  | [last] => last.words ++ [fixed .closeParen]
  | p :: ps => p.words ++ fixed .comma :: allWords ps

mutual

def Stmt.words : Stmt → List Token.Word
  | .assign _ name value => .name name :: fixed .assignment :: (value.words ++ [.newline])
  | .init _ name type value =>
    .name name :: fixed .colon :: type.word :: fixed .assignment :: (value.words ++ [.newline])
  | .define _ name params result body =>
    fixed .kwDef :: .name name :: fixed .openParen ::
      (Param.allWords params ++ fixed .arrow :: result.word :: Token.Word.body (Stmt.allWords body))
  | .ifElse _ cond yes no =>
    fixed .kwIf :: (cond.words ++ Token.Word.body (Stmt.allWords yes) ++ Stmt.elseWords no)
  | .ifElif _ cond yes cond' yes' no =>
    fixed .kwIf :: (cond.words ++ Token.Word.body (Stmt.allWords yes) ++
      fixed .kwElif :: (cond'.words ++ Token.Word.body (Stmt.allWords yes') ++ Stmt.elseWords no))
  | .whileDo _ cond body => fixed .kwWhile :: (cond.words ++ Token.Word.body (Stmt.allWords body))
  | .pass _ => [fixed .kwPass, .newline]
  | .ret _ value => fixed .kwReturn :: (value.words ++ [.newline])
  | .expr _ value => value.words ++ [.newline]

def Stmt.allWords : List Stmt → List Token.Word
  | [] => []
  | s :: ss => s.words ++ allWords ss

def Stmt.elseWords : List Stmt → List Token.Word
  | [] => []
  | s :: ss => fixed .kwElse :: Token.Word.body (s.words ++ allWords ss)

end

namespace Token

/-- The text cannot go on a word before it. -/
def Ends (tail : List Char) : Prop := ∀ c ∈ tail.head?, isWordChar c = false

theorem ends_cons {c : Char} (h : isWordChar c = false) (cs : List Char) : Ends (c :: cs) := by
  rintro d ⟨⟩
  exact h

/-- A word that cannot go on is a lexeme. -/
theorem lexeme?_word {word : String} {tail : List Char} (hw : isIdentifier word = true)
    (ht : Ends tail) :
    lexeme? (word.toList ++ tail) = some (.word (wordKind word.toList), word.toList) := by
  unfold isIdentifier at hw
  split at hw
  · cases hw
  · rename_i c cs hword
    rw [Bool.and_eq_true] at hw
    rw [hword, List.cons_append, lexeme?, if_pos hw.1,
      takeWhile_ends (List.all_eq_true.mp hw.2) ht]

theorem isWordStart_of_isDigit {c : Char} (h : c.isDigit = true) : isWordStart c = false := by
  have hne : c ≠ '_' := by
    rintro rfl
    cases h
  have hle : c.val.toNat ≤ 57 := of_decide_eq_true (Bool.and_eq_true_iff.mp h).2
  have hupper : c.isUpper = false := by
    cases hu : c.isUpper with
    | false => rfl
    | true =>
      have hge : 65 ≤ c.val.toNat := (of_decide_eq_true hu).1
      omega
  have hlower : c.isLower = false := by
    cases hl : c.isLower with
    | false => rfl
    | true =>
      have hge : 97 ≤ c.val.toNat := of_decide_eq_true (Bool.and_eq_true_iff.mp hl).1
      omega
  change (c.isUpper || c.isLower || c == '_') = false
  rw [hupper, hlower, beq_false_of_ne hne]
  rfl

theorem isDigit_of_not_isWordChar {c : Char} (h : isWordChar c = false) : c.isDigit = false := by
  simp only [isWordChar, Char.isAlphanum, Bool.or_eq_false_iff] at h
  exact h.1.2

theorem lexeme?_number {text tail : List Char} (hne : text ≠ []) (hd : text.all Char.isDigit = true)
    (ht : Ends tail) : lexeme? (text ++ tail) = some (.word .number, text) := by
  cases text with
  | nil => exact absurd rfl hne
  | cons c cs =>
    rw [List.all_cons, Bool.and_eq_true] at hd
    rw [List.cons_append, lexeme?, isWordStart_of_isDigit hd.1, if_neg Bool.false_ne_true,
      if_pos hd.1, takeWhile_ends (List.all_eq_true.mp hd.2)
        fun d hd => isDigit_of_not_isWordChar (ht d hd)]

theorem lexeme?_gap {tail : List Char} (ht : ∀ c ∈ tail.head?, isGap c = false) :
    lexeme? (' ' :: tail) = some (.gap, [' ']) := by
  have htake : ([] ++ tail).takeWhile isGap = [] := takeWhile_ends (by simp) ht
  change some (Lexeme.gap, ' ' :: ([] ++ tail).takeWhile isGap) = _
  rw [htake]

/-- A minus before what is no angle bracket. -/
theorem lexeme?_minus {tail : List Char} (h : ∀ c ∈ tail.head?, c ≠ '>') :
    lexeme? ('-' :: tail) = some (.word .dash, ['-']) := by
  have hoperator : operator? ('-' :: tail) = some (.dash, ['-']) := by
    unfold operator?
    split <;> simp_all
  change (operator? ('-' :: tail)).map _ = _
  rw [hoperator]
  rfl

theorem symbol_not_gap (op : BinaryOp) (tail : List Char) :
    ∀ c ∈ (op.symbol.toList ++ tail).head?, isGap c = false := by
  cases op <;> exact fun c hc => by cases hc; rfl

/-- The symbol of an operator ends at the blank behind it. -/
theorem lexeme?_symbol (op : BinaryOp) (tail : List Char) :
    lexeme? (op.symbol.toList ++ ' ' :: tail) = some (.word op.kind, op.symbol.toList) := by
  cases op <;> rfl

namespace Scanner

def words (s : Scanner) : List Word := s.tokens.reverse.map word

theorem words_push (s : Scanner) (kind : Kind) (value : String) (text : List Char) :
    (s.push kind value text).words = s.words ++ [⟨kind, value⟩] := by
  simp [words, push, word]

@[simp] theorem words_skip (s : Scanner) (text : List Char) : (s.skip text).words = s.words := rfl

theorem words_pushDedents (s : Scanner) (n : Nat) :
    (s.pushDedents n).words = s.words ++ List.replicate n .dedent := by
  induction n generalizing s with
  | zero => simp [pushDedents]
  | succ n ih =>
    rw [pushDedents, ih, words_push, List.append_assoc, List.replicate_succ]
    rfl

theorem run_of_step {s t : Scanner} (hs : s.rest ≠ []) (h : s.step = .ok t) : s.run = t.run := by
  rw [Scanner.run, dif_neg hs]
  split
  · rename_i hstep
    rw [h] at hstep
    cases hstep
  · rename_i hstep
    rw [h] at hstep
    cases hstep
    rfl

def nesting (parens : Nat) : List Word → Nat
  | [] => parens
  | w :: ws =>
    nesting
      (match w.kind with
      | .openParen => parens + 1
      | .closeParen => parens - 1
      | _ => parens) ws

theorem nesting_append (parens : Nat) (ws vs : List Word) :
    nesting parens (ws ++ vs) = nesting (nesting parens ws) vs := by
  induction ws generalizing parens with
  | nil => rfl
  | cons w ws ih => exact ih _

/-- Inside a line the scanner goes over the text in front of the tail, and these are its words. -/
def Passes (text : String) (tail : List Char) (ws : List Word) : Prop :=
  ∀ s : Scanner, s.lineStart = false → s.rest = text.toList ++ tail →
    ∃ t : Scanner, s.run = t.run ∧ t.rest = tail ∧ t.lineStart = false ∧ t.levels = s.levels ∧
      t.parens = nesting s.parens ws ∧ t.words = s.words ++ ws

namespace Passes

variable {text text' : String} {tail : List Char} {ws vs : List Word}

/-- One text behind another, if the first passes before the second. -/
theorem append (h : Passes text (text'.toList ++ tail) ws) (h' : Passes text' tail vs) :
    Passes (text ++ text') tail (ws ++ vs) := by
  intro s hs hr
  rw [String.toList_append, List.append_assoc] at hr
  obtain ⟨t, hrun, hrest, hline, hlevels, hparens, hwords⟩ := h s hs hr
  obtain ⟨u, hrun', hrest', hline', hlevels', hparens', hwords'⟩ := h' t hline hrest
  refine ⟨u, hrun.trans hrun', hrest', hline', hlevels'.trans hlevels, ?_, ?_⟩
  · rw [hparens', hparens, nesting_append]
  · rw [hwords', hwords, List.append_assoc]

theorem word {kind : Kind} (hk : kind ≠ .string)
    (h : lexeme? (text.toList ++ tail) = some (.word kind, text.toList)) :
    Passes text tail [⟨kind, text⟩] := by
  intro s hs hr
  have hne : s.rest ≠ [] := by
    rw [hr]
    have := (lexeme?_front h).1
    simp [this]
  have hstep : s.step = .ok (s.takeWord kind text.toList) := by
    rw [step, if_neg (by simp [hs]), takeLexeme, hr, h]
  have hvalue : wordValue kind text.toList = text := by
    unfold wordValue
    split
    · exact absurd rfl hk
    · exact String.ofList_toList
  refine ⟨_, run_of_step hne hstep, ?_, hs, rfl, ?_, ?_⟩
  · simp [takeWord, skip, hr]
  · cases kind <;> rfl
  · change ((s.push kind _ text.toList).skip text.toList).words = _
    rw [words_skip, words_push, hvalue]

theorem gap (h : ∀ c ∈ tail.head?, isGap c = false) : Passes " " tail [] := by
  intro s hs hr
  change s.rest = ' ' :: tail at hr
  have hstep : s.step = .ok (s.skip [' ']) := by
    rw [step, if_neg (by simp [hs]), takeLexeme, hr, lexeme?_gap h]
  refine ⟨_, run_of_step (by simp [hr]) hstep, ?_, hs, rfl, rfl, ?_⟩
  · simp [skip, hr]
  · rw [words_skip, List.append_nil]

/-- A blank after the text. -/
theorem spaced (h : Passes text (' ' :: tail) ws) (ht : ∀ c ∈ tail.head?, isGap c = false) :
    Passes (text ++ " ") tail ws := by
  have hgap : Passes (text ++ " ") tail (ws ++ []) := append h (gap ht)
  rwa [List.append_nil] at hgap

/-- Of identifiers, keywords are words of their own kind. -/
theorem keyword {word : String} {kind : Kind} (hw : isIdentifier word = true)
    (hk : Kind.keyword? word = some kind) (ht : Ends tail) : Passes word tail [fixed kind] := by
  have hspelling := Kind.spelling?_of_keyword? hk
  have hkind : wordKind word.toList = kind := by
    rw [wordKind, String.ofList_toList, hk]
    rfl
  have hfixed : fixed kind = ⟨kind, word⟩ := by
    rw [fixed, hspelling]
    rfl
  rw [hfixed]
  refine .word ?_ (hkind ▸ lexeme?_word hw ht)
  rintro rfl
  cases hspelling

theorem name {word : String} (h : isName word = true) (ht : Ends tail) :
    Passes word tail [.name word] := by
  rw [isName, Bool.and_eq_true, Option.isNone_iff_eq_none] at h
  have hkind : wordKind word.toList = .identifier := by
    rw [wordKind, String.ofList_toList, h.2]
    rfl
  exact .word (by decide) (hkind ▸ lexeme?_word h.1 ht)

theorem openParen : Passes "(" tail [fixed .openParen] := .word (by decide) rfl

theorem closeParen : Passes ")" tail [fixed .closeParen] := .word (by decide) rfl

theorem comma : Passes "," tail [fixed .comma] := .word (by decide) rfl

theorem colon : Passes ":" tail [fixed .colon] := .word (by decide) rfl

theorem assignment : Passes "=" (' ' :: tail) [fixed .assignment] := .word (by decide) rfl

theorem arrow : Passes "->" tail [fixed .arrow] := .word (by decide) rfl

theorem symbol (op : BinaryOp) : Passes op.symbol (' ' :: tail) [fixed op.kind] := by
  have hfixed : fixed op.kind = ⟨op.kind, op.symbol⟩ := by cases op <;> rfl
  rw [hfixed]
  exact .word (by cases op <;> decide) (lexeme?_symbol op tail)

/-- Parentheses end a word. -/
theorem grouped (b : Bool) (h : ∀ tail, Ends tail → Passes text tail ws) (ht : Ends tail) :
    Passes (Text.grouped b text) tail (Word.grouped b ws) := by
  cases b with
  | false => exact h tail ht
  | true =>
    have hinner := h (')' :: tail) (ends_cons rfl tail)
    exact .append (.append .openParen hinner) .closeParen

end Passes

end Scanner

def startsWord (c : Char) : Bool := isWordChar c || c == '(' || c == '-'

def Begins (text : String) : Prop := ∃ c cs, text.toList = c :: cs ∧ startsWord c = true

namespace Begins

variable {text : String}

theorem of_head (h : text.toList.head?.any startsWord = true) : Begins text := by
  obtain ⟨c, hc, hs⟩ := (Option.any_eq_true _ _).mp h
  obtain ⟨cs, hcs⟩ := List.head?_eq_some_iff.mp hc
  exact ⟨c, cs, hcs, hs⟩

theorem append (h : Begins text) (text' : String) : Begins (text ++ text') := by
  obtain ⟨c, cs, hc, hs⟩ := h
  exact ⟨c, cs ++ text'.toList, by rw [String.toList_append, hc, List.cons_append], hs⟩

theorem of_isIdentifier (h : isIdentifier text = true) : Begins text := by
  unfold isIdentifier at h
  split at h
  · cases h
  · rename_i c cs hc
    rw [Bool.and_eq_true] at h
    exact ⟨c, cs, hc, by rw [startsWord, isWordChar_of_start h.1]; rfl⟩

theorem of_isName (h : isName text = true) : Begins text := by
  rw [isName, Bool.and_eq_true] at h
  exact of_isIdentifier h.1

theorem decimal (v : Int32) : Begins (Text.decimal v) := by
  cases hc : (Text.decimal v).toList with
  | nil => exact absurd hc (Text.decimal_ne_nil v)
  | cons c cs =>
    refine ⟨c, cs, hc, ?_⟩
    have hmem : c ∈ (Text.decimal v).toList := by
      rw [hc]
      exact List.mem_cons_self
    rcases Text.mem_decimal hmem with hd | rfl
    · simp [startsWord, isWordChar, Char.isAlphanum, hd]
    · rfl

theorem grouped (b : Bool) (h : Begins text) : Begins (Text.grouped b text) := by
  cases b with
  | false => exact h
  | true =>
    have hopen : Begins "(" := of_head rfl
    exact (hopen.append text).append ")"

/-- What such a text does not start with. -/
theorem head_ne (h : Begins text) {e : Char} (he : startsWord e = false) (tail : List Char) :
    ∀ c ∈ (text.toList ++ tail).head?, c ≠ e := by
  obtain ⟨c, cs, hc, hs⟩ := h
  rw [hc]
  rintro d ⟨⟩ rfl
  rw [hs] at he
  cases he

theorem not_gap (h : Begins text) (tail : List Char) :
    ∀ c ∈ (text.toList ++ tail).head?, isGap c = false := by
  intro c hc
  have hblank := h.head_ne (e := ' ') rfl tail c hc
  have htab := h.head_ne (e := '\t') rfl tail c hc
  have hreturn := h.head_ne (e := '\r') rfl tail c hc
  simp [isGap, hblank, htab, hreturn]

end Begins

end Token

open Token Token.Scanner

/-- A written expression starts with a word, a parenthesis or a minus. -/
theorem Expr.render_begins (e : Expr) (h : e.isPrintable = true) : Begins e.render := by
  match e with
  | .noneLit _ =>
    change Begins "None"
    exact .of_head rfl
  | .boolLit _ true =>
    change Begins "True"
    exact .of_head rfl
  | .boolLit _ false =>
    change Begins "False"
    exact .of_head rfl
  | .intLit _ value => exact .decimal value
  | .var _ name => exact .of_isName h
  | .unary _ op operand =>
    have hop : Begins op.render := by cases op <;> exact .of_head rfl
    exact hop.append _
  | .binary _ op left right =>
    rw [isPrintable, Bool.and_eq_true] at h
    exact ((((render_begins left h.1).grouped _).append _).append _).append _ |>.append _
  | .call _ callee args =>
    rw [isPrintable, Bool.and_eq_true, Bool.and_eq_true] at h
    exact (((Begins.of_isName h.1.1).append _).append _).append _
  | .print _ arg =>
    have hprint : Begins "print(" := .of_head rfl
    exact (hprint.append _).append _

theorem Expr.renderArgs_begins (e : Expr) (es : List Expr)
    (h : Expr.areArgsPrintable (e :: es) = true) : Begins (Expr.renderArgs (e :: es)) := by
  rw [areArgsPrintable, Bool.and_eq_true] at h
  cases es with
  | nil => exact e.render_begins h.1
  | cons e' es => exact ((e.render_begins h.1).append _).append _

theorem Text.decimal_digits {v : Int32} (h : 0 ≤ v.toInt) :
    (decimal v).toList.all Char.isDigit = true := by
  unfold decimal
  cases hv : v.toInt with
  | ofNat n =>
    have hl : (toString (Int.ofNat n)).toList = Nat.toDigits 10 n := Nat.toList_repr
    rw [hl, List.all_eq_true]
    intro c hc
    exact Nat.isDigit_of_mem_toDigits (by omega) (by omega) hc
  | negSucc n =>
    rw [hv] at h
    cases h

mutual

/-- The words of a written expression are those that its parts consist of. -/
theorem Expr.render_passes (e : Expr) (h : e.isPrintable = true) (tail : List Char) (ht : Ends tail) :
    Passes e.render tail e.words := by
  match e with
  | .noneLit _ =>
    change Passes "None" tail [fixed .kwNone]
    exact .keyword (by decide) rfl ht
  | .boolLit _ true =>
    change Passes "True" tail [fixed .kwTrue]
    exact .keyword (by decide) rfl ht
  | .boolLit _ false =>
    change Passes "False" tail [fixed .kwFalse]
    exact .keyword (by decide) rfl ht
  | .intLit _ value =>
    have hd := Text.decimal_digits (of_decide_eq_true h)
    exact .word (by decide) (lexeme?_number (Text.decimal_ne_nil value) hd ht)
  | .var _ name => exact .name h ht
  | .unary _ op operand =>
    have hbegins := (operand.render_begins h).grouped (operand.level < op.level)
    have hoperand := Passes.grouped (operand.level < op.level) (operand.render_passes h) ht
    have hop : Passes op.render
        ((Text.grouped (operand.level < op.level) operand.render).toList ++ tail)
        [fixed op.kind] := by
      cases op with
      | not =>
        change Passes ("not" ++ " ") _ [fixed .kwNot]
        exact .spaced (.keyword (by decide) rfl (ends_cons rfl _)) (hbegins.not_gap tail)
      | neg => exact .word (by decide) (lexeme?_minus (hbegins.head_ne rfl tail))
    exact .append hop hoperand
  | .binary _ op left right =>
    rw [isPrintable, Bool.and_eq_true] at h
    have hbegins := (right.render_begins h.2).grouped (right.level ≤ op.level)
    have hright := Passes.grouped (right.level ≤ op.level) (right.render_passes h.2) ht
    have hleft := Passes.spaced
      (Passes.grouped (left.level < op.level) (left.render_passes h.1) (ends_cons rfl _))
      (symbol_not_gap op
        (" ".toList ++ ((Text.grouped (right.level ≤ op.level) right.render).toList ++ tail)))
    have hop := Passes.spaced (Passes.append hleft (Passes.symbol op)) (hbegins.not_gap tail)
    have hall := Passes.append hop hright
    rw [List.append_assoc] at hall
    exact hall
  | .call _ callee args =>
    rw [isPrintable, Bool.and_eq_true, Bool.and_eq_true] at h
    have hargs := argsPass args h.2 tail ht
    have hall : Passes (callee ++ "(" ++ (renderArgs args ++ ")")) tail
        ([.name callee, fixed .openParen] ++ argWords args) :=
      .append (.append (.name h.1.1 (ends_cons rfl _)) .openParen) hargs
    rw [← String.append_assoc] at hall
    exact hall
  | .print _ arg =>
    have harg := arg.render_passes h (')' :: tail) (ends_cons rfl tail)
    have hcallee : Passes ("print" ++ "(") (arg.render.toList ++ (')' :: tail))
        [.name "print", fixed .openParen] :=
      .append (.name (by decide) (ends_cons rfl _)) .openParen
    exact .append (.append hcallee harg) .closeParen

theorem Expr.argsPass (args : List Expr) (h : Expr.areArgsPrintable args = true)
    (tail : List Char) (ht : Ends tail) :
    Passes (Expr.renderArgs args ++ ")") tail (Expr.argWords args) := by
  match args with
  | [] => exact .closeParen
  | [last] =>
    rw [areArgsPrintable, Bool.and_eq_true] at h
    exact .append (last.render_passes h.1 _ (ends_cons rfl tail)) .closeParen
  | e :: e' :: es =>
    rw [areArgsPrintable, Bool.and_eq_true] at h
    have hrest := argsPass (e' :: es) h.2 tail ht
    have hbegins := (renderArgs_begins e' es h.2).append ")"
    have hcomma : Passes ("," ++ " ") ((renderArgs (e' :: es) ++ ")").toList ++ tail)
        [fixed .comma] := .spaced .comma (hbegins.not_gap tail)
    have hall : Passes (e.render ++ ", " ++ (renderArgs (e' :: es) ++ ")")) tail
        (e.words ++ [fixed .comma] ++ argWords (e' :: es)) :=
      .append (.append (e.render_passes h.1 _ (ends_cons rfl _)) hcomma) hrest
    rw [← String.append_assoc, List.append_assoc] at hall
    exact hall

end

theorem Ty.passes (t : Ty) {tail : List Char} (ht : Ends tail) :
    Passes t.annotation tail [t.word] := by
  cases t with
  | int => exact .name (by decide) ht
  | bool => exact .name (by decide) ht
  | none | void => exact .keyword (by decide) rfl ht

theorem Ty.annotation_begins (t : Ty) : Begins t.annotation := by
  cases t <;> exact .of_head rfl

theorem Param.render_passes (p : Param) (h : p.isPrintable = true) {tail : List Char} (ht : Ends tail) :
    Passes p.render tail p.words := by
  rw [isPrintable, Bool.and_eq_true] at h
  have hcolon : Passes (":" ++ " ") (p.type.annotation.toList ++ tail) [fixed .colon] :=
    .spaced .colon (p.type.annotation_begins.not_gap tail)
  exact .append (.append (.name h.1 (ends_cons rfl _)) hcolon) (p.type.passes ht)

theorem Param.renderAll_begins (p : Param) (ps : List Param) (h : p.isPrintable = true) :
    Begins (Param.renderAll (p :: ps)) := by
  rw [isPrintable, Bool.and_eq_true] at h
  have hfirst : Begins p.render := ((Begins.of_isName h.1).append _).append _
  cases ps with
  | nil => exact hfirst
  | cons p' ps => exact (hfirst.append _).append _

/-- The words of written parameters are those that they consist of, with commas between. -/
theorem Param.allPass (ps : List Param) (h : ps.all Param.isPrintable = true) (tail : List Char) :
    Passes (Param.renderAll ps ++ ")") tail (Param.allWords ps) := by
  match ps with
  | [] => exact .closeParen
  | [last] =>
    rw [List.all_cons, Bool.and_eq_true] at h
    exact .append (last.render_passes h.1 (ends_cons rfl tail)) .closeParen
  | p :: p' :: ps =>
    rw [List.all_cons, Bool.and_eq_true] at h
    have hrest := allPass (p' :: ps) h.2 tail
    rw [List.all_cons, Bool.and_eq_true] at h
    have hbegins := (renderAll_begins p' ps h.2.1).append ")"
    have hcomma : Passes ("," ++ " ") ((renderAll (p' :: ps) ++ ")").toList ++ tail)
        [fixed .comma] := .spaced .comma (hbegins.not_gap tail)
    have hall : Passes (p.render ++ ", " ++ (renderAll (p' :: ps) ++ ")")) tail
        (p.words ++ [fixed .comma] ++ allWords (p' :: ps)) :=
      .append (.append (p.render_passes h.1 (ends_cons rfl _)) hcomma) hrest
    rw [← String.append_assoc, List.append_assoc] at hall
    exact hall

def Token.Kind.inExpr : Kind → Bool
  | .eof | .string | .newline | .indent | .dedent | .assignment | .colon | .arrow | .kwDef | .kwIf
  | .kwElif | .kwElse | .kwWhile | .kwReturn | .kwPass | .kwAnd | .kwOr => false
  | _ => true

theorem Token.Word.grouped_forall {P : Token.Word → Prop} {b : Bool} {ws : List Token.Word}
    (hopen : P (fixed .openParen)) (hclose : P (fixed .closeParen)) (h : ∀ w ∈ ws, P w) :
    ∀ w ∈ grouped b ws, P w := by
  cases b with
  | false => exact h
  | true =>
    intro w hw
    rcases List.mem_cons.mp hw with rfl | hw
    · exact hopen
    · rcases List.mem_append.mp hw with hw | hw
      · exact h w hw
      · rw [List.mem_singleton.mp hw]
        exact hclose

mutual

theorem Expr.words_inExpr (e : Expr) : ∀ w ∈ e.words, w.kind.inExpr = true := by
  match e with
  | .noneLit _ | .intLit .. | .var .. => exact List.forall_mem_singleton.mpr rfl
  | .boolLit _ value => cases value <;> exact List.forall_mem_singleton.mpr rfl
  | .unary _ op operand =>
    refine List.forall_mem_cons.mpr ⟨by cases op <;> rfl, ?_⟩
    exact Word.grouped_forall rfl rfl operand.words_inExpr
  | .binary _ op left right =>
    refine List.forall_mem_append.mpr ⟨Word.grouped_forall rfl rfl left.words_inExpr, ?_⟩
    refine List.forall_mem_cons.mpr ⟨by cases op <;> rfl, ?_⟩
    exact Word.grouped_forall rfl rfl right.words_inExpr
  | .call _ callee args =>
    exact List.forall_mem_cons.mpr ⟨rfl, List.forall_mem_cons.mpr ⟨rfl, argWords_inExpr args⟩⟩
  | .print _ arg =>
    refine List.forall_mem_cons.mpr ⟨rfl, List.forall_mem_cons.mpr ⟨rfl, ?_⟩⟩
    exact List.forall_mem_append.mpr ⟨arg.words_inExpr, List.forall_mem_singleton.mpr rfl⟩

theorem Expr.argWords_inExpr (args : List Expr) :
    ∀ w ∈ Expr.argWords args, w.kind.inExpr = true := by
  match args with
  | [] => exact List.forall_mem_singleton.mpr rfl
  | [last] =>
    exact List.forall_mem_append.mpr ⟨last.words_inExpr, List.forall_mem_singleton.mpr rfl⟩
  | e :: e' :: es =>
    refine List.forall_mem_append.mpr ⟨e.words_inExpr, ?_⟩
    exact List.forall_mem_cons.mpr ⟨rfl, argWords_inExpr (e' :: es)⟩

end

theorem Token.Scanner.nesting_grouped {ws : List Token.Word} (h : ∀ n, nesting n ws = n) (b : Bool)
    (n : Nat) : nesting n (grouped b ws) = n := by
  cases b with
  | false => exact h n
  | true =>
    change nesting (n + 1) (ws ++ [fixed .closeParen]) = n
    rw [nesting_append, h]
    rfl

mutual

/-- An expression closes the parentheses that it opens, and holds no line end. -/
theorem Expr.nesting_words (e : Expr) (n : Nat) : nesting n e.words = n := by
  match e with
  | .noneLit _ | .intLit .. | .var .. => rfl
  | .boolLit _ value => cases value <;> rfl
  | .unary _ op operand =>
    have hoperand := nesting_grouped operand.nesting_words (operand.level < op.level) n
    cases op <;> exact hoperand
  | .binary _ op left right =>
    have hright := nesting_grouped right.nesting_words (right.level ≤ op.level) n
    rw [words, nesting_append, nesting_grouped left.nesting_words]
    cases op <;> exact hright
  | .call _ callee args => exact nesting_argWords args n
  | .print _ arg =>
    change nesting (n + 1) (arg.words ++ [fixed .closeParen]) = n
    rw [nesting_append, arg.nesting_words]
    rfl

theorem Expr.nesting_argWords (args : List Expr) (n : Nat) :
    nesting (n + 1) (Expr.argWords args) = n := by
  match args with
  | [] => rfl
  | [last] =>
    rw [argWords, nesting_append, last.nesting_words]
    rfl
  | e :: e' :: es =>
    rw [argWords, nesting_append, e.nesting_words]
    · exact nesting_argWords (e' :: es) n
    · simp

end

end StackScript
