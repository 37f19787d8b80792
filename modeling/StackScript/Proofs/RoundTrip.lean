import StackScript.Proofs.Loading
import StackScript.Proofs.Parsed

namespace StackScript

def Token.isIdentifier (name : String) : Bool :=
  match name.toList with
  | [] => false
  | c :: cs => isWordStart c && cs.all isWordChar

theorem Token.bare_of_isIdentifier {name : String} (h : isIdentifier name = true) : Bare name := by
  unfold isIdentifier at h
  split at h
  · cases h
  · rename_i c cs hname
    rw [Bool.and_eq_true] at h
    intro d hd
    rw [hname] at hd
    rcases List.mem_cons.mp hd with rfl | hd
    · exact isBare_of_isWordChar (isWordChar_of_start h.1)
    · exact isBare_of_isWordChar (List.all_eq_true.mp h.2 d hd)

namespace Instr

mutual

def names : Instr → List String
  | .address _ name | .localGet name | .localSet name | .call name _ _ => [name]
  | .block body | .loop body => namesAll body
  | _ => []

def namesAll : List Instr → List String
  | [] => []
  | i :: is => names i ++ namesAll is

end

mutual

theorem spelled_of_names (i : Instr) (h : ∀ name ∈ i.names, Bare name) : i.Spelled := by
  match i with
  | .address _ name | .localGet name | .localSet name | .call name _ _ =>
    exact h name List.mem_cons_self
  | .block body | .loop body => exact spelledAll_of_names body h
  | .const _ | .num _ | .load | .store | .drop | .nop | .ret | .br _ | .brIf _ => trivial

theorem spelledAll_of_names (is : List Instr) (h : ∀ name ∈ namesAll is, Bare name) :
    SpelledAll is := by
  match is with
  | [] => trivial
  | i :: is =>
    exact ⟨spelled_of_names i fun name hm => h name (List.mem_append_left _ hm),
      spelledAll_of_names is fun name hm => h name (List.mem_append_right _ hm)⟩

end

end Instr

namespace FunctionCode

def names (f : FunctionCode) : List String :=
  f.name :: (f.params ++ (f.locals ++ Instr.namesAll f.body))

theorem spelled_of_names {f : FunctionCode} (h : ∀ name ∈ f.names, Bare name) : f.Spelled where
  name := h f.name List.mem_cons_self
  params p hp := h p (by simp [names, hp])
  locals l hl := h l (by simp [names, hl])
  body := Instr.spelledAll_of_names f.body fun name hm => h name (by simp [names, hm])

end FunctionCode

namespace ModuleText

def signature? (functions : List FunctionCode) (name : String) : Option (Nat × Nat) :=
  match imports.find? (·.1 == name) with
  | some (_, _, params) => some (params, 0)
  | none => (functions.find? (·.name == name)).map fun f => (f.params.length, 1)

/-- Functions and the code of an entry that refer to nothing else. The entry has no variables of its
own, and around the code of each function there is one label. -/
structure Closed (functions : List FunctionCode) (main : List Instr) : Prop where
  identifiers : ∀ name ∈ functions.flatMap FunctionCode.names ++ Instr.namesAll main,
    Token.isIdentifier name = true
  distinct : (hostNames ++ functions.map (·.name)).Nodup
  bodies : ∀ f ∈ functions,
    Instr.FitsAll (signature? functions) (f.params ++ f.locals) 1 f.body
  main : Instr.FitsAll (signature? functions) [] 1 main

section Closed

variable {functions : List FunctionCode} {main : List Instr}

theorem Closed.bare (h : Closed functions main) {name : String}
    (hm : name ∈ functions.flatMap FunctionCode.names ++ Instr.namesAll main) : Bare name :=
  Token.bare_of_isIdentifier (h.identifiers name hm)

/-- Identifiers can be part of an atom, so the functions can be written. -/
theorem Closed.spelled (h : Closed functions main) : ∀ f ∈ functions, f.Spelled := fun f hf =>
  FunctionCode.spelled_of_names fun _ hm =>
    h.bare (List.mem_append_left _ (List.mem_flatMap.mpr ⟨f, hf, hm⟩))

theorem Closed.spelledMain (h : Closed functions main) : Instr.SpelledAll main :=
  Instr.spelledAll_of_names main fun _ hm => h.bare (List.mem_append_right _ hm)

end Closed

/-- The functions of a module are found among the host's first. -/
theorem signatureIn_functionsOf (functions : List FunctionCode) (returnsValue : Bool)
    (main : List Instr) :
    Module.signatureIn (Module.functionsOf functions (Module.entryOf returnsValue main)) =
      signature? functions := by
  funext name
  let import_ (i : String × String × Nat) : Function := Module.importFunction i.1 i.2.1 i.2.2
  have hhost : (imports.map import_).find? (fun f => f.name == some name) =
      (imports.find? (·.1 == name)).map import_ := by
    rw [List.find?_map]
    rfl
  have hown : (functions.map FunctionCode.function).find? (fun f => f.name == some name) =
      (functions.find? (·.name == name)).map FunctionCode.function := by
    rw [List.find?_map]
    rfl
  have hentry : [Module.entryOf returnsValue main].find? (fun f => f.name == some name) = none :=
    rfl
  unfold Module.signatureIn signature?
  change ((imports.map import_ ++ (functions.map FunctionCode.function ++
    [Module.entryOf returnsValue main])).find? _).map _ = _
  rw [List.find?_append, List.find?_append, hhost, hown, hentry, Option.or_none]
  cases imports.find? (·.1 == name) with
  | some entry => simp [import_, Module.importFunction, Module.placeNames]
  | none => cases functions.find? (·.name == name) <;> rfl

end ModuleText

namespace Module

/-- A module that refers to nothing else can be run from its entry. -/
theorem prepare_closed {functions : List FunctionCode} {main : List Instr}
    (h : ModuleText.Closed functions main) (returnsValue : Bool) :
    prepare (ModuleText.wrap (functions.map FunctionCode.render) (Instr.renderAll 2 main)
        returnsValue) =
      .ok (⟨functionsOf functions (entryOf returnsValue main), some ⟨"js", "memory", 1⟩⟩,
        entryOf returnsValue main) := by
  have hfits := h.bodies
  have hmainFits := h.main
  rw [← ModuleText.signatureIn_functionsOf functions returnsValue main] at hfits hmainFits
  exact prepare_wrap returnsValue h.spelled h.spelledMain h.distinct hfits hmainFits

/-- A module loads as the host's functions, then the functions it was written from, then its entry,
wherever the code of the entry was indented to. -/
theorem load_undoes_rendering {functions : List FunctionCode} {main : List Instr}
    (h : ModuleText.Closed functions main) (depth : Nat) (returnsValue : Bool) :
    load (ModuleText.wrap (functions.map FunctionCode.render) (Instr.renderAll depth main)
        returnsValue) =
      .ok {
        functions :=
          [⟨some "print", ["0"], 0, [], [], some ("imports", "imported_func"), none⟩,
            ⟨some "print_global", ["0", "1"], 0, [], [], some ("imports", "print_global_func"),
              none⟩,
            ⟨some "print_int", ["0"], 0, [], [], some ("imports", "print_int"), none⟩,
            ⟨some "print_bool", ["0"], 0, [], [], some ("imports", "print_bool"), none⟩] ++
          functions.map (fun f =>
            ⟨some f.name, f.params, 1, f.locals, Instr.loadedAll f.body, none, none⟩) ++
          [⟨none, [], if returnsValue then 1 else 0, [], Instr.loadedAll main, none,
            some "exported_func"⟩]
        memory := some ⟨"js", "memory", 1⟩ } := by
  have hfits := h.bodies
  have hmainFits := h.main
  rw [← ModuleText.signatureIn_functionsOf functions returnsValue main] at hfits hmainFits
  rw [load_wrap returnsValue depth h.spelled h.spelledMain h.distinct hfits hmainFits, functionsOf,
    List.append_assoc]
  rfl

/-- A loop in a block that calls a function of the module, which calls itself and the host; a negative
constant and a named address. -/
theorem load_undoes_rendering_nested :
    ∃ functions main, ModuleText.Closed functions main ∧
      functions = [⟨"f", ["n"], ["i"], [.localGet "n", .localSet "i", .localGet "i",
        .call "print_int" 1 0, .localGet "i", .call "f" 1 1, .ret, .const 0]⟩] ∧
      main = [.address 4 "x", .const (-7), .store, .block [.loop [.const 2, .call "f" 1 1, .brIf 1,
        .br 0]], .const 1] ∧
      (load (ModuleText.wrap (functions.map FunctionCode.render) (Instr.renderAll 3 main)
          true)).map (fun m => (m.functions.drop 4).map (·.body)) =
        .ok [[.localGet "n", .localSet "i", .localGet "i", .call "print_int" 1 0, .localGet "i",
            .call "f" 1 1, .ret, .const 0],
          [.const 4, .const (-7), .store, .block [.loop [.const 2, .call "f" 1 1, .brIf 1, .br 0]],
            .const 1]] := by
  refine ⟨_, _, ?closed, rfl, rfl, ?loads⟩
  case loads => exact congrArg (Except.map _) (load_undoes_rendering ?closed 3 true)
  refine ⟨by decide, by decide, ?_, ?_⟩
  · simp [Instr.FitsAll, Instr.Fits, ModuleText.signature?, ModuleText.imports]
  · simp [Instr.FitsAll, Instr.Fits, ModuleText.signature?, ModuleText.imports]

end Module

end StackScript
