import StackScript.ModuleText
import StackScript.Proofs.Reading

namespace StackScript

open Form

def Bare (name : String) : Prop := ∀ c ∈ name.toList, isBare c = true

theorem bare_ne_newline {c : Char} (h : isBare c = true) : c ≠ '\n' ∧ c ≠ '\r' := by
  constructor <;> rintro rfl <;> revert h <;> decide

namespace Instr

mutual

/-- Every name in the code can be part of an atom. -/
def Spelled : Instr → Prop
  | .address _ name | .localGet name | .localSet name | .call name _ _ => Bare name
  | .block body | .loop body => SpelledAll body
  | _ => True

def SpelledAll : List Instr → Prop
  | [] => True
  | i :: is => Spelled i ∧ SpelledAll is

end

mutual

def sexp : Instr → Sexp
  | .const value | .address value _ => .list [.atom "i32.const", .atom (Text.decimal value)]
  | .localGet name => .list [.atom "local.get", .atom ("$" ++ name)]
  | .localSet name => .list [.atom "local.set", .atom ("$" ++ name)]
  | .call name _ _ => .list [.atom "call", .atom ("$" ++ name)]
  | .br n => .list [.atom "br", .atom (toString n)]
  | .brIf n => .list [.atom "br_if", .atom (toString n)]
  | .block body => .list (.atom "block" :: sexpAll body)
  | .loop body => .list (.atom "loop" :: sexpAll body)
  | .num op => .list [.atom op.mnemonic]
  | .load => .list [.atom "i32.load"]
  | .store => .list [.atom "i32.store"]
  | .drop => .list [.atom "drop"]
  | .nop => .list [.atom "nop"]
  | .ret => .list [.atom "return"]

def sexpAll : List Instr → List Sexp
  | [] => []
  | i :: is => sexp i :: sexpAll is

end

theorem spelledAll_append {a b : List Instr} :
    SpelledAll (a ++ b) ↔ SpelledAll a ∧ SpelledAll b := by
  induction a with
  | nil => simp [SpelledAll]
  | cons i is ih => simp [SpelledAll, ih, and_assoc]

end Instr

theorem toString_string (s : String) : toString s = s := rfl

theorem reads_indentation (depth : Nat) : Reads (Instr.indentation depth).toList [] := by
  apply Reads.blanks
  intro c hc
  rw [Instr.indentation, String.toList_ofList] at hc
  rw [List.eq_of_mem_replicate hc]
  decide

theorem reads_newline : Reads ['\n'] [] := Reads.blanks (by decide)

theorem reads_append {a b : String} {xs ys : List Sexp} (ha : Reads a.toList xs)
    (hb : Reads b.toList ys) : Reads (a ++ b).toList (xs ++ ys) := by
  rw [String.toList_append]
  exact ha.append hb

/-- A text in parentheses is one list. -/
theorem reads_listed {inner : String} {xs : List Sexp} (h : Reads inner.toList xs) :
    Reads ("(" ++ inner ++ ")").toList [.list xs] := by
  have hl := Reads.list h.inside
  simpa using hl

/-- A list and the end of its last line. -/
theorem reads_enclosed {inner : String} {xs : List Sexp} (h : Reads inner.toList xs) :
    Reads ("(" ++ inner ++ ")" ++ "\n").toList [.list xs] :=
  reads_append (reads_listed h) reads_newline

theorem reads_space : Reads " ".toList [] := Reads.blanks (by decide)

theorem reads_margin : Reads "  ".toList [] := Reads.blanks (by decide)

theorem reads_func : Reads "func ".toList [.atom "func"] :=
  Reads.spaced (by decide) (by decide) (by decide)

theorem readsInside_word {word : String} (hne : word.toList ≠ []) (hb : Bare word) :
    ReadsInside word.toList [.atom word] := by
  have h := ReadsInside.atom hne hb
  rwa [String.ofList_toList] at h

theorem reads_word {word : String} {d : Char} (hne : word.toList ≠ []) (hb : Bare word)
    (hd : isBlank d = true) : Reads (word.toList ++ [d]) [.atom word] := by
  have h := Reads.spaced hne hb hd
  rwa [String.ofList_toList] at h

theorem readsInside_more {word : String} {cs : List Char} {xs : List Sexp} (hne : word.toList ≠ [])
    (hb : Bare word) (h : ReadsInside cs xs) :
    ReadsInside (word.toList ++ ' ' :: cs) (.atom word :: xs) := by
  have hr := ReadsInside.append (reads_word (d := ' ') hne hb (by decide)) h
  simpa using hr

/-- Two words with a blank between them. -/
theorem readsInside_words {first second : String} (hf : first.toList ≠ []) (hbf : Bare first)
    (hs : second.toList ≠ []) (hbs : Bare second) :
    ReadsInside (first.toList ++ ' ' :: second.toList) [.atom first, .atom second] :=
  readsInside_more hf hbf (readsInside_word hs hbs)

theorem bare_append {a b : String} (ha : Bare a) (hb : Bare b) : Bare (a ++ b) := by
  intro c hc
  rw [String.toList_append] at hc
  rcases List.mem_append.mp hc with hc | hc
  · exact ha c hc
  · exact hb c hc

/-- Names are written behind a dollar sign. -/
theorem bare_dollar {name : String} (h : Bare name) : Bare ("$" ++ name) :=
  bare_append (by unfold Bare; decide) h

theorem isBare_of_isDigit {c : Char} (h : c.isDigit = true) : isBare c = true := by
  simp only [Char.isDigit, Bool.and_eq_true, decide_eq_true_eq] at h
  have hne (e : Char) (he : e.val < 48 ∨ 57 < e.val) : c ≠ e := by
    rintro rfl
    rcases he with he | he
    · exact absurd h.1 (by simpa using he)
    · exact absurd h.2 (by simpa using he)
  simp [isBare, isBlank, hne]

/-- Numbers are written bare, with their sign. -/
theorem bare_decimal (v : Word) : Bare (Text.decimal v) := by
  intro c hc
  rcases Text.mem_decimal hc with hd | rfl
  · exact isBare_of_isDigit hd
  · decide

theorem toList_toString (n : Nat) : (toString n).toList = Nat.toDigits 10 n := Nat.toList_repr

theorem bare_toString (n : Nat) : Bare (toString n) := by
  intro c hc
  rw [toList_toString] at hc
  exact isBare_of_isDigit (Nat.isDigit_of_mem_toDigits (by omega) (by omega) hc)

theorem toString_ne_nil (n : Nat) : (toString n).toList ≠ [] := by
  rw [toList_toString]
  exact Nat.toDigits_ne_nil

theorem NumOp.bare_mnemonic (op : NumOp) : op.mnemonic.toList ≠ [] ∧ Bare op.mnemonic := by
  unfold Bare
  cases op <;> decide

theorem dollar_ne_nil (name : String) : ("$" ++ name).toList ≠ [] := by
  simp

open ModuleText

/-- Two texts, the second being the first moved in, whatever follows. -/
def MovesIn (text moved : String) : Prop := ∀ rest, indented (text ++ rest) = moved ++ indented rest

/-- Texts one behind the other are moved in one by one. -/
theorem MovesIn.append {a b a' b' : String} (ha : MovesIn a a') (hb : MovesIn b b') :
    MovesIn (a ++ b) (a' ++ b') := by
  intro rest
  rw [String.append_assoc, ha, hb, String.append_assoc]

theorem lines_line {line rest : List Char} (h : ∀ c ∈ line, c ≠ '\n') :
    Text.lines (line ++ '\n' :: rest) = (line ++ ['\n']) :: Text.lines rest := by
  induction line with
  | nil => simp [Text.lines]
  | cons c cs ih =>
    have hc : c ≠ '\n' := h c (by simp)
    rw [List.cons_append, Text.lines, if_neg hc, ih (fun d hd => h d (by simp [hd]))]
    rfl

def OneLine (cs : List Char) : Prop := ∀ c ∈ cs, c ≠ '\n' ∧ c ≠ '\r'

theorem OneLine.append {a b : List Char} (ha : OneLine a) (hb : OneLine b) : OneLine (a ++ b) := by
  intro c hc
  rcases List.mem_append.mp hc with hc | hc
  · exact ha c hc
  · exact hb c hc

theorem OneLine.cons {c : Char} {cs : List Char} (hc : c ≠ '\n' ∧ c ≠ '\r') (h : OneLine cs) :
    OneLine (c :: cs) := by
  intro d hd
  rcases List.mem_cons.mp hd with rfl | hd
  · exact hc
  · exact h d hd

/-- A bare name ends no line, so it may be written into a comment. -/
theorem Bare.oneLine {name : String} (h : Bare name) : OneLine name.toList :=
  fun c hc => bare_ne_newline (h c hc)

/-- A line is moved in by two blanks. -/
theorem movesIn_line {line text : String} (h : OneLine line.toList) (ht : text = line ++ "\n") :
    MovesIn text ("  " ++ text) := by
  intro rest
  have hl : (text ++ rest).toList = line.toList ++ '\n' :: rest.toList := by simp [ht]
  have hr : line.toList.getLast? ≠ some '\r' :=
    fun he => (h '\r' (List.mem_of_getLast? he)).2 rfl
  rw [indented, linesOf, hl, lines_line (fun c hc => (h c hc).1)]
  simp [hr, indented, linesOf, ht, String.append_assoc]

theorem two_blanks (depth : Nat) :
    "  " ++ Instr.indentation depth = Instr.indentation (depth + 1) := by
  apply String.ext
  simp [Instr.indentation, Nat.mul_add, List.replicate_succ]

/-- A text that can stand at every depth: it reads as the same forms, and moved in it is the text of
the next depth. -/
structure Laid (text : Nat → String) (xs : List Sexp) : Prop where
  reads : ∀ depth, Reads (text depth).toList xs
  moves : ∀ depth, MovesIn (text depth) (text (depth + 1))

namespace Laid

theorem nil : Laid (fun _ => "") [] :=
  ⟨fun _ => Reads.nil, fun _ rest => by simp⟩

theorem append {a b : Nat → String} {xs ys : List Sexp} (ha : Laid a xs) (hb : Laid b ys) :
    Laid (fun depth => a depth ++ b depth) (xs ++ ys) := by
  refine ⟨fun depth => ?_, fun depth => (ha.moves depth).append (hb.moves depth)⟩
  rw [String.toList_append]
  exact (ha.reads depth).append (hb.reads depth)

end Laid

/-- A line behind its indentation, moved in. -/
theorem movesIn_indented {line : List Char} {text : String} (depth : Nat) (h : OneLine line)
    (ht : text.toList = line ++ ['\n']) :
    MovesIn (Instr.indentation depth ++ text) (Instr.indentation (depth + 1) ++ text) := by
  have hi : OneLine (Instr.indentation depth).toList := by
    intro c hc
    rw [Instr.indentation, String.toList_ofList] at hc
    rw [List.eq_of_mem_replicate hc]
    decide
  have hl : Instr.indentation depth ++ text =
      String.ofList ((Instr.indentation depth).toList ++ line) ++ "\n" := by
    apply String.ext
    simp [ht]
  have h := movesIn_line (by rw [String.toList_ofList]; exact hi.append h) hl
  rwa [← String.append_assoc, two_blanks] at h

/-- A list on a line of its own. -/
theorem Laid.line {inner : List Char} {xs : List Sexp} {text : String} (h : ReadsInside inner xs)
    (ho : OneLine inner) (ht : text.toList = '(' :: inner ++ [')', '\n']) :
    Laid (fun depth => Instr.indentation depth ++ text) [.list xs] := by
  constructor
  · intro depth
    have hl := (reads_indentation depth).append ((Reads.list h).append reads_newline)
    rw [String.toList_append, ht]
    simpa using hl
  · intro depth
    have hl : OneLine ('(' :: inner ++ [')']) :=
      (OneLine.cons (by decide) ho).append (.cons (by decide) (by simp [OneLine]))
    exact movesIn_indented depth hl (by simp [ht])

namespace Instr

/-- A word alone. -/
theorem laid_word {word text : String} (hw : word.toList ≠ [] ∧ Bare word)
    (ht : text.toList = '(' :: word.toList ++ [')', '\n']) :
    Laid (fun depth => indentation depth ++ text) [.list [.atom word]] :=
  Laid.line (readsInside_word hw.1 hw.2) hw.2.oneLine ht

/-- A word and its operand. -/
theorem laid_words {word operand text : String} (hw : word.toList ≠ [] ∧ Bare word)
    (ho : operand.toList ≠ [] ∧ Bare operand)
    (ht : text.toList = '(' :: (word.toList ++ ' ' :: operand.toList) ++ [')', '\n']) :
    Laid (fun depth => indentation depth ++ text) [.list [.atom word, .atom operand]] :=
  Laid.line (readsInside_words hw.1 hw.2 ho.1 ho.2)
    (hw.2.oneLine.append (.cons (by decide) ho.2.oneLine)) ht

/-- An address has the name of its variable behind it. -/
theorem laid_address (v : Word) {name text : String} (h : Bare name)
    (ht : text.toList = '(' :: ("i32.const".toList ++ ' ' :: (Text.decimal v).toList) ++
      ')' :: ' ' :: ';' :: ';' :: ' ' :: name.toList ++ ['\n']) :
    Laid (fun depth => indentation depth ++ text)
      [.list [.atom "i32.const", .atom (Text.decimal v)]] := by
  have hw : "i32.const".toList ≠ [] ∧ Bare "i32.const" := by unfold Bare; decide
  have hv := And.intro (Text.decimal_ne_nil v) (bare_decimal v)
  constructor
  · intro depth
    have hc : OneLine (' ' :: name.toList) := .cons (by decide) h.oneLine
    have hb : Reads [' '] [] := Reads.blanks (by decide)
    have hl := (reads_indentation depth).append
      ((Reads.list (readsInside_words hw.1 hw.2 hv.1 hv.2)).append
        (hb.append (Reads.comment (fun c hm => (hc c hm).1))))
    rw [String.toList_append, ht]
    simpa using hl
  · intro depth
    have hl : OneLine ('(' :: ("i32.const".toList ++ ' ' :: (Text.decimal v).toList) ++
        ')' :: ' ' :: ';' :: ';' :: ' ' :: name.toList) := by
      refine OneLine.append (.cons (by decide) (hw.2.oneLine.append (.cons (by decide) ?_))) ?_
      · exact hv.2.oneLine
      · exact OneLine.append (a := [')', ' ', ';', ';', ' ']) (by unfold OneLine; decide) h.oneLine
    exact movesIn_indented depth hl (by simp [ht])

/-- Code inside parentheses of its own lines. -/
theorem laid_nested (word opening : String) {body : Nat → String} {xs : List Sexp}
    (hw : word.toList ≠ [] ∧ Bare word) (ho : opening.toList = '(' :: word.toList ++ ['\n'])
    (h : Laid body xs) :
    Laid (fun depth => indentation depth ++ opening ++ body (depth + 1) ++ indentation depth ++ ")\n")
      [.list (.atom word :: xs)] := by
  constructor
  · intro depth
    have hin : ReadsInside (word.toList ++ ['\n'] ++ (body (depth + 1)).toList ++
        (indentation depth).toList) (.atom word :: xs) := by
      have := ((reads_word (d := '\n') hw.1 hw.2 (by decide)).append (h.reads (depth + 1))).append
        (reads_indentation depth)
      simpa using this.inside
    have hl := (reads_indentation depth).append ((Reads.list hin).append reads_newline)
    simp only [String.toList_append, ho]
    simpa using hl
  · intro depth
    have hopen : OneLine ('(' :: word.toList) := .cons (by decide) hw.2.oneLine
    have hclose : OneLine [')'] := by unfold OneLine; decide
    have hend : ")\n".toList = [')'] ++ ['\n'] := rfl
    have := ((movesIn_indented depth hopen ho).append (h.moves (depth + 1))).append
      (movesIn_indented depth hclose hend)
    simpa only [String.append_assoc] using this

mutual

/-- An instruction reads as the list of its word and its operand, at every depth. -/
theorem laid (i : Instr) (h : i.Spelled) : Laid (fun depth => i.render depth) [i.sexp] := by
  match i with
  | .const v =>
    exact laid_words (by unfold Bare; decide) ⟨Text.decimal_ne_nil v, bare_decimal v⟩
      (by simp [toString_string])
  | .address v name => exact laid_address v h (by simp [toString_string])
  | .num op => exact laid_word op.bare_mnemonic (by simp [toString_string])
  | .load | .store | .drop | .nop | .ret => exact laid_word (by unfold Bare; decide) (by decide)
  | .localGet name | .localSet name | .call name _ _ =>
    exact laid_words (by unfold Bare; decide) ⟨dollar_ne_nil name, bare_dollar h⟩
      (by simp [toString_string])
  | .br n | .brIf n =>
    exact laid_words (by unfold Bare; decide) ⟨toString_ne_nil n, bare_toString n⟩
      (by simp [toString_string])
  | .block body =>
    have hb := laid_nested "block" "(block\n" (by unfold Bare; decide) (by decide) (laidAll body h)
    simpa only [render, sexp] using hb
  | .loop body =>
    have hb := laid_nested "loop" "(loop\n" (by unfold Bare; decide) (by decide) (laidAll body h)
    simpa only [render, sexp] using hb

theorem laidAll (is : List Instr) (h : SpelledAll is) :
    Laid (fun depth => renderAll depth is) (sexpAll is) := by
  match is with
  | [] => exact Laid.nil
  | i :: is => exact (laid i h.1).append (laidAll is h.2)

end

end Instr

theorem Reads.join {α : Type} {text : α → String} {x : α → Sexp} {as : List α}
    (h : ∀ a ∈ as, Reads (text a).toList [x a]) :
    Reads (String.join (as.map text)).toList (as.map x) := by
  rw [String.toList_join]
  induction as with
  | nil => exact Reads.nil
  | cons a as ih =>
    have := (h a (by simp)).append (ih (fun b hb => h b (by simp [hb])))
    simpa using this

theorem OneLine.join {α : Type} {text : α → String} {as : List α}
    (h : ∀ a ∈ as, OneLine (text a).toList) : OneLine (String.join (as.map text)).toList := by
  intro c hc
  rw [String.toList_join, List.mem_flatMap] at hc
  obtain ⟨t, ht, hc⟩ := hc
  obtain ⟨a, ha, rfl⟩ := List.mem_map.mp ht
  exact h a ha c hc

theorem Laid.join {α : Type} {text : α → Nat → String} {x : α → Sexp} {as : List α}
    (h : ∀ a ∈ as, Laid (text a) [x a]) :
    Laid (fun depth => String.join (as.map fun a => text a depth)) (as.map x) := by
  induction as with
  | nil => exact Laid.nil
  | cons a as ih =>
    have := (h a (by simp)).append (ih (fun b hb => h b (by simp [hb])))
    simpa [String.join_cons] using this

/-- A word before the only type there is. -/
theorem reads_typed (word : String) (hw : word.toList ≠ [] ∧ Bare word) :
    Reads (" (" ++ word ++ " i32)").toList [.list [.atom word, .atom "i32"]] := by
  have hi : "i32".toList ≠ [] ∧ Bare "i32" := by unfold Bare; decide
  have hl := reads_space.append (Reads.list (readsInside_words hw.1 hw.2 hi.1 hi.2))
  simpa using hl

def declaredSexp (word name : String) : Sexp := .list [.atom word, .atom ("$" ++ name), .atom "i32"]

theorem readsInside_declared (word : String) {name : String} (hw : word.toList ≠ [] ∧ Bare word)
    (hn : Bare name) :
    ReadsInside (word.toList ++ ' ' :: (("$" ++ name).toList ++ ' ' :: "i32".toList))
        [.atom word, .atom ("$" ++ name), .atom "i32"] ∧
      OneLine (word.toList ++ ' ' :: (("$" ++ name).toList ++ ' ' :: "i32".toList)) := by
  have hi : "i32".toList ≠ [] ∧ Bare "i32" := by unfold Bare; decide
  have hd := bare_dollar hn
  refine ⟨readsInside_more hw.1 hw.2 (readsInside_words (dollar_ne_nil name) hd hi.1 hi.2), ?_⟩
  exact hw.2.oneLine.append (.cons (by decide) (hd.oneLine.append (.cons (by decide) hi.2.oneLine)))

namespace FunctionCode

structure Spelled (f : FunctionCode) : Prop where
  name : Bare f.name
  params : ∀ p ∈ f.params, Bare p
  locals : ∀ l ∈ f.locals, Bare l
  body : Instr.SpelledAll f.body

def sexp (f : FunctionCode) : Sexp :=
  .list (.atom "func" :: .atom ("$" ++ f.name) :: (f.params.map (declaredSexp "param") ++
    .list [.atom "result", .atom "i32"] :: (f.locals.map (declaredSexp "local") ++
      Instr.sexpAll f.body)))

def header (f : FunctionCode) : String :=
  "(func $" ++ f.name ++ String.join (f.params.map fun p => s!" (param ${p} i32)") ++ " (result i32)"

def localLines (f : FunctionCode) (depth : Nat) : String :=
  String.join (f.locals.map fun l => Instr.indentation depth ++ s!"(local ${l} i32)\n")

theorem render_eq (f : FunctionCode) :
    f.render = f.header ++ "\n" ++ f.localLines 1 ++ Instr.renderAll 1 f.body ++ ")" := by
  have hl (l : String) : s!"  (local ${l} i32)\n" = Instr.indentation 1 ++ s!"(local ${l} i32)\n" := by
    apply String.ext
    simp [toString_string, Instr.indentation]
  unfold render localLines header
  simp only [hl]
  apply String.ext
  simp [toString_string]

theorem laid_locals {f : FunctionCode} (h : f.Spelled) :
    Laid f.localLines (f.locals.map (declaredSexp "local")) := by
  refine Laid.join fun l hl => ?_
  obtain ⟨hr, ho⟩ := readsInside_declared "local" (by unfold Bare; decide) (h.locals l hl)
  exact Laid.line hr ho (by simp [toString_string])

/-- A parameter is a list on the line of its function. -/
theorem param_reads {p : String} (h : Bare p) :
    Reads (s!" (param ${p} i32)").toList [declaredSexp "param" p] ∧
      OneLine (s!" (param ${p} i32)").toList := by
  obtain ⟨hr, ho⟩ := readsInside_declared "param" (by unfold Bare; decide) h
  have ht : (s!" (param ${p} i32)").toList =
      [' '] ++ ('(' :: ("param".toList ++ ' ' :: (("$" ++ p).toList ++ ' ' :: "i32".toList)) ++ [')']) := by
    simp [toString_string]
  rw [ht]
  have hb : Reads [' '] [] := Reads.blanks (by decide)
  refine ⟨hb.append (Reads.list hr), ?_⟩
  exact .cons (by decide) ((OneLine.cons (by decide) ho).append (by unfold OneLine; decide))

theorem oneLine_header {f : FunctionCode} (h : f.Spelled) : OneLine f.header.toList := by
  have hp := OneLine.join fun p hp => (param_reads (h.params p hp)).2
  unfold header
  simp only [String.toList_append]
  refine (OneLine.append (OneLine.append ?_ h.name.oneLine) hp).append ?_ <;>
    (unfold OneLine; decide)

/-- A function one level further in. -/
theorem indented_render {f : FunctionCode} (h : f.Spelled) :
    indented f.render =
      "  " ++ (f.header ++ "\n") ++ f.localLines 2 ++ Instr.renderAll 2 f.body ++ "  )\n" := by
  have hm := ((movesIn_line (oneLine_header h) rfl).append ((laid_locals h).moves 1)).append
    ((Instr.laidAll f.body h.body).moves 1)
  have hlast : indented ")" = "  )\n" := by decide
  rw [render_eq, hm, hlast]

/-- The forms between the name of a function and the end of its first line. -/
theorem reads_signature {f : FunctionCode} (h : f.Spelled) :
    Reads (("$" ++ f.name).toList ++
        (String.join (f.params.map fun p => s!" (param ${p} i32)") ++ " (result i32)").toList)
      (.atom ("$" ++ f.name) :: f.params.map (declaredSexp "param") ++
        [.list [.atom "result", .atom "i32"]]) := by
  have hw : Bare "result" ∧ Bare "i32" := by unfold Bare; decide
  have hspace : Reads [' '] [] := Reads.blanks (by decide)
  have hresult : Reads " (result i32)".toList [.list [.atom "result", .atom "i32"]] :=
    hspace.append (Reads.list (readsInside_words (by decide) hw.1 (by decide) hw.2))
  have hr := (Reads.join fun p hp => (param_reads (h.params p hp)).1).append hresult
  rw [← String.toList_append] at hr
  -- a blank stands behind the name, with parameters and without
  have hblank : ∃ cs, (String.join (f.params.map fun p => s!" (param ${p} i32)") ++
      " (result i32)").toList = ' ' :: cs := by
    cases f.params with
    | nil => exact ⟨_, rfl⟩
    | cons p ps => exact ⟨_, by simp [String.join_cons, toString_string]; rfl⟩
  obtain ⟨cs, hcs⟩ := hblank
  rw [hcs] at hr ⊢
  have := Reads.atom_before (dollar_ne_nil f.name) (bare_dollar h.name) (by decide) hr
  rwa [String.ofList_toList] at this

/-- A function whose lines start at some depth, with blanks before its last parenthesis. -/
theorem reads_lines {f : FunctionCode} (h : f.Spelled) (depth : Nat) {margin : String}
    (hm : Reads margin.toList []) :
    Reads (f.header ++ "\n" ++ f.localLines depth ++ Instr.renderAll depth f.body ++ margin ++
      ")").toList [f.sexp] := by
  have hfunc : Reads "func ".toList [.atom "func"] :=
    Reads.spaced (by decide) (by decide) (by decide)
  have hin := ((((hfunc.append (reads_signature h)).append reads_newline).append
    ((laid_locals h).reads depth)).append ((Instr.laidAll f.body h.body).reads depth)).append hm
  have hl := Reads.list hin.inside
  rw [sexp]
  simpa [header] using hl

/-- The text of a function reads as one list. -/
theorem reads_render {f : FunctionCode} (h : f.Spelled) : Reads f.render.toList [f.sexp] := by
  have hempty : Reads "".toList [] := Reads.blanks (by decide)
  have hl := reads_lines h 1 hempty
  rw [String.append_empty] at hl
  rwa [render_eq]

/-- The text of a function moved in by two blanks reads as the same list. -/
theorem reads_indented {f : FunctionCode} (h : f.Spelled) :
    Reads (indented f.render).toList [f.sexp] := by
  have hblank : Reads "  ".toList [] := Reads.blanks (by decide)
  have hl := hblank.append ((reads_lines h 2 hblank).append reads_newline)
  rw [indented_render h]
  simpa using hl

end FunctionCode

namespace ModuleText

def quotedAtom (text : String) : Sexp := .atom ("\"" ++ text ++ "\"")

theorem reads_quoted (text : String) (h : ∀ c ∈ text.toList, c ≠ '"' ∧ c ≠ '\n') :
    Reads ("\"" ++ text ++ "\"").toList [quotedAtom text] := by
  have hq : ("\"" ++ text ++ "\"").toList = '"' :: text.toList ++ ['"'] := by simp
  have hr := Reads.quoted h
  rw [← hq, String.ofList_toList] at hr
  exact hr

def importSexp (name field : String) (params : Nat) : Sexp :=
  .list (.atom "func" :: .atom ("$" ++ name) ::
    .list [.atom "import", quotedAtom "imports", quotedAtom field] ::
    List.replicate params (.list [.atom "param", .atom "i32"]))

theorem reads_importText {name field : String} (params : Nat) (hn : Bare name)
    (hf : ∀ c ∈ field.toList, c ≠ '"' ∧ c ≠ '\n') :
    Reads (importText name field params).toList [importSexp name field params] := by
  have hparams : Reads (String.join ((List.replicate params ()).map fun _ => " (param i32)")).toList
      _ := Reads.join fun _ _ => reads_typed "param" (by unfold Bare; decide)
  have hword : Reads "import ".toList [.atom "import"] :=
    Reads.spaced (by decide) (by decide) (by decide)
  have himport := reads_listed (reads_append hword (reads_append (reads_quoted "imports" (by decide))
    (reads_append reads_space (reads_quoted field hf))))
  have hname : Reads ("$" ++ name ++ " ").toList [.atom ("$" ++ name)] := by
    rw [String.toList_append]
    exact reads_word (dollar_ne_nil name) (bare_dollar hn) (by decide)
  have hl := reads_append reads_margin (reads_enclosed (reads_append reads_func
    (reads_append hname (reads_append himport hparams))))
  have htext : importText name field params = "  " ++ ("(" ++ ("func " ++ ("$" ++ name ++ " " ++
      ("(" ++ ("import " ++ ("\"" ++ "imports" ++ "\"" ++ (" " ++ ("\"" ++ field ++ "\"")))) ++ ")" ++
      String.join ((List.replicate params ()).map fun _ => " (param i32)")))) ++ ")" ++ "\n") := by
    have hopen : "  (func $" = "  " ++ ("(" ++ ("func " ++ "$")) := rfl
    have hmiddle : " (import \"imports\" \"" =
      " " ++ ("(" ++ ("import " ++ ("\"" ++ ("imports" ++ ("\"" ++ (" " ++ "\"")))))) := rfl
    have hquote : "\")" = "\"" ++ ")" := rfl
    have hend : ")\n" = ")" ++ "\n" := rfl
    unfold importText
    simp only [toString_string, List.map_replicate]
    rewrite [hopen, hmiddle, hquote, hend]
    simp only [String.append_assoc]
  rewrite [htext]
  simpa [importSexp] using hl

def memorySexp : Sexp :=
  .list [.atom "import", quotedAtom "js", quotedAtom "memory", .list [.atom "memory", .atom "1"]]

def entrySexp (returnsValue : Bool) (main : List Sexp) : Sexp :=
  .list (.atom "func" :: .list [.atom "export", quotedAtom entryName] ::
    (if returnsValue then [.list [.atom "result", .atom "i32"]] else []) ++ main)

def moduleSexp (functions : List FunctionCode) (returnsValue : Bool) (main : List Sexp) : Sexp :=
  .list ([.atom "module"] ++ (imports.map (fun (name, field, params) => importSexp name field params) ++
    ([memorySexp] ++ (functions.map FunctionCode.sexp ++ [entrySexp returnsValue main]))))

theorem reads_memory : Reads "  (import \"js\" \"memory\" (memory 1))\n".toList [memorySexp] := by
  have hblank : Reads [' ', ' '] [] := Reads.blanks (by decide)
  have hword : Reads "import ".toList [.atom "import"] :=
    Reads.spaced (by decide) (by decide) (by decide)
  have hjs : Reads "\"js\"".toList [quotedAtom "js"] := reads_quoted "js" (by decide)
  have hmemory : Reads "\"memory\"".toList [quotedAtom "memory"] := reads_quoted "memory" (by decide)
  have hpages : Reads "(memory 1)".toList [.list [.atom "memory", .atom "1"]] := by
    have hw : Bare "memory" ∧ Bare "1" := by unfold Bare; decide
    exact Reads.list (readsInside_words (by decide) hw.1 (by decide) hw.2)
  exact hblank.append ((Reads.list ((hword.append (hjs.append (reads_space.append (hmemory.append
    (reads_space.append hpages)))))).inside).append reads_newline)

/-- The entry of a module is exported, and gives a word if the unit has a value. -/
theorem reads_entry (returnsValue : Bool) {main : String} {xs : List Sexp}
    (h : Reads main.toList xs) :
    Reads ("  (func (export \"" ++ entryName ++ "\")" ++
        (if returnsValue then " (result i32)" else "") ++ "\n" ++ main ++ "  )\n").toList
      [entrySexp returnsValue xs] := by
  have hblank : Reads [' ', ' '] [] := Reads.blanks (by decide)
  have hfunc : Reads "func ".toList [.atom "func"] :=
    Reads.spaced (by decide) (by decide) (by decide)
  have hword : Reads "export ".toList [.atom "export"] :=
    Reads.spaced (by decide) (by decide) (by decide)
  have hexport := Reads.list (hword.append (reads_quoted entryName (by decide))).inside
  have hresult : Reads (if returnsValue then " (result i32)" else "").toList
      (if returnsValue then [.list [.atom "result", .atom "i32"]] else []) := by
    cases returnsValue with
    | false => exact Reads.nil
    | true =>
      have hw : Bare "result" ∧ Bare "i32" := by unfold Bare; decide
      exact reads_space.append (Reads.list (readsInside_words (by decide) hw.1 (by decide) hw.2))
  have hl := hblank.append ((Reads.list ((hfunc.append (hexport.append (hresult.append
    (reads_newline.append (h.append hblank))))).inside)).append reads_newline)
  simpa [entrySexp] using hl

theorem reads_imports :
    Reads (String.join (imports.map fun (name, field, params) => importText name field params)).toList
      (imports.map fun (name, field, params) => importSexp name field params) := by
  have hbare : ∀ i ∈ imports, Bare i.1 ∧ ∀ c ∈ i.2.1.toList, c ≠ '"' ∧ c ≠ '\n' := by
    unfold Bare
    decide
  exact Reads.join fun (name, field, params) hi =>
    reads_importText params (hbare _ hi).1 (hbare _ hi).2

theorem wrap_eq (definitions : List String) (main : String) (returnsValue : Bool) :
    wrap definitions main returnsValue =
      "(" ++ ("module\n" ++
        (String.join (imports.map fun (name, field, params) => importText name field params) ++
        ("  (import \"js\" \"memory\" (memory 1))\n" ++ (String.join (definitions.map indented) ++
        ("  (func (export \"" ++ entryName ++ "\")" ++
          (if returnsValue then " (result i32)" else "") ++ "\n" ++ main ++ "  )\n"))))) ++
        ")" ++ "\n" := by
  have hopen : "(module\n" = "(" ++ "module\n" := rfl
  have hclose : ")\n" = ")" ++ "\n" := rfl
  unfold wrap
  rewrite [hopen, hclose]
  simp only [String.append_assoc, toString_string]

/-- The text of a module reads as one form. -/
theorem reads_wrap {functions : List FunctionCode} (returnsValue : Bool) {main : String}
    {xs : List Sexp} (hf : ∀ f ∈ functions, f.Spelled) (h : Reads main.toList xs) :
    Reads (wrap (functions.map FunctionCode.render) main returnsValue).toList
      [moduleSexp functions returnsValue xs] := by
  have hword : Reads "module\n".toList [.atom "module"] :=
    Reads.spaced (by decide) (by decide) (by decide)
  have hfunctions := Reads.join fun f hm => FunctionCode.reads_indented (hf f hm)
  rewrite [wrap_eq, List.map_map, Function.comp_def]
  exact reads_enclosed (reads_append hword (reads_append reads_imports (reads_append reads_memory
    (reads_append hfunctions (reads_entry returnsValue h)))))

end ModuleText

end StackScript
