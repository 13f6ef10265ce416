import GdscriptCompiler.Program.Declarations
import GdscriptCompiler.Lib.Numbered
import GdscriptCompiler.Lib.Results
import Mathlib.Data.List.Pairwise
import Mathlib.Data.Nat.Find
import Mathlib.Data.List.Nodup
import Mathlib.Logic.Function.Basic

/-!
# Chain — merging an `extends` chain into one program

A function declared again further down moves its earlier copy to a symbol of its own; the table of
origins keeps, link by link, where the copies of a name went.
-/

namespace Program

open Lib

variable {P : Type}

/-! ## 1. Merging -/

/-- `displaced_symbol`: the `@` keeps it out of the method list, the link number apart from the
others. -/
def displacedSymbol (link : Nat) (name : String) : String := numbered "@super" link ++ ("." ++ name)

/-- How a function of a script is named before merging: as declared, or as a trait's method that the
script overrides. -/
def FunctionDecl.Named (f : FunctionDecl P) : Prop :=
  (IsIdentifier f.name ∧ f.name ≠ "" ∧ f.chainName = "") ∨
    ∃ trait, f.name = displacedTraitSymbol trait f.chainName ∧ IsIdentifier f.chainName

/-- One script of a chain, as the parser and `apply_traits` leave it. -/
structure ChainLink (P : Type) where
  name : String
  path : String
  program : Script P
  named : ∀ f ∈ program.functions, f.Named
  unlinked : ∀ f ∈ program.functions, f.chainLink = 0
  unmerged : ∀ n, program.chain.functions n = []

def ChainLink.functions (link : ChainLink P) : List (FunctionDecl P) := link.program.functions

def maxChainDepth : Nat := 16

def linkLabel (links : List (ChainLink P)) (link : Nat) : String :=
  match links[link]? with
  | none => "this script"
  | some entry =>
    if entry.name ≠ "" then "'" ++ entry.name ++ "'"
    else if entry.path ≠ "" then "'" ++ entry.path ++ "'"
    else "this script"

def linkPath (links : List (ChainLink P)) (link : Nat) : String :=
  (links[link]?.map (·.path)).getD ""

structure Declared where
  link : Nat
  what : String

abbrev Names := String → Option Declared

/-- A declaration as `reject_redeclaration` looks at it. -/
structure Entry where
  what : String
  name : String
  line : Nat
  column : Nat

def rejectRedeclaration (links : List (ChainLink P)) (link : Nat) (seen : Names) (entry : Entry) :
    Except SemanticError Names :=
  match seen entry.name with
  | some earlier =>
    .error {
      message := entry.what ++ " '" ++ entry.name ++ "' is already declared in " ++
        linkLabel links earlier.link ++
        " as a " ++ earlier.what
      file := linkPath links link
      line := entry.line
      column := entry.column
      hint := "A merged chain has one flat name table, so a base and a derived script cannot both declare '" ++
        entry.name ++ "'" }
  | none => .ok (Function.update seen entry.name (some ⟨link, entry.what⟩))

def Script.members (source : Script P) : List Entry :=
  source.globals.map (fun g => ⟨if g.isConst then "Constant" else "Variable", g.name, g.line,
    g.column⟩) ++
    source.signals.map (fun s => ⟨"Signal", s.name, s.line, s.column⟩)

def Script.types (source : Script P) : List Entry :=
  source.structs.map (fun d => ⟨if d.isClass then "Class" else "Struct", d.name, d.line, d.column⟩) ++
    source.traits.map (fun d => ⟨"Trait", d.name, d.line, d.column⟩) ++
    (source.enums.filter (·.name ≠ "")).map (fun d => ⟨"Enum", d.name, d.line, d.column⟩)

/-- The names of one link go into the tables of members and of types. -/
def declareNames (links : List (ChainLink P)) (seen : Names × Names) (source : ChainLink P × Nat) :
    Except SemanticError (Names × Names) := do
  let members ← source.1.program.members.foldlM (rejectRedeclaration links source.2) seen.1
  let types ← source.1.program.types.foldlM (rejectRedeclaration links source.2) seen.2
  return (members, types)

def rejectRepeatedPath (seen : List String) (link : ChainLink P) :
    Except SemanticError (List String) :=
  if link.path = "" then .ok seen
  else if link.path ∈ seen then
    .error {
      message := "'" ++ link.path ++ "' appears twice in the 'extends' chain"
      file := link.path
      line := 0
      column := 0
      hint := "A script cannot extend itself, directly or through a base" }
  else .ok (link.path :: seen)

/-- The functions merged so far: `origins` under every declared name, and in `visible` the index of
the copy that an unqualified call reaches. -/
structure Merging (P : Type) where
  functions : List (FunctionDecl P)
  origins : String → List Origin
  visible : String → Option Nat

def Merging.empty : Merging P := ⟨[], fun _ => [], fun _ => none⟩

/-- The last copy of the name moves to a symbol of its own. -/
def Merging.displace (s : Merging P) (name : String) (displaced : Origin) :
    Except SemanticError (Merging P) :=
  let symbol := displacedSymbol displaced.link name
  match s.visible name with
  | some previous =>
    .ok { s with
      functions := s.functions.modify previous fun f => { f with chainName := name, name := symbol }
      origins := Function.update s.origins name ((s.origins name).dropLast ++
        [⟨displaced.link, symbol⟩]) }
  -- `visible.at`
  | none => .error { message := "_Map_base::at", line := 0, column := 0 }

def Merging.push (s : Merging P) (link : Nat) (decl : FunctionDecl P) : Merging P where
  functions := s.functions ++ [{ decl with chainLink := link }]
  origins := Function.update s.origins decl.name (s.origins decl.name ++ [⟨link, decl.name⟩])
  visible := Function.update s.visible decl.name (some s.functions.length)

def Merging.declare (s : Merging P) (link : Nat) (decl : FunctionDecl P) :
    Except SemanticError (Merging P) :=
  match (s.origins decl.name).getLast? with
  | some displaced => do
      let s ← s.displace decl.name displaced
      return s.push link decl
  | none => .ok (s.push link decl)

def declareFunction (links : List (ChainLink P)) (link : Nat) (s : Merging P × List String)
    (decl : FunctionDecl P) : Except SemanticError (Merging P × List String) :=
  if decl.name ∈ s.2 then
    .error {
      message := "Function '" ++ decl.name ++ "' is declared twice in " ++ linkLabel links link
      file := linkPath links link
      line := decl.line
      column := decl.column }
  else do
    let merging ← s.1.declare link decl
    return (merging, decl.name :: s.2)

def mergeLink (links : List (ChainLink P)) (s : Merging P) (source : ChainLink P × Nat) :
    Except SemanticError (Merging P) := do
  let result ← source.1.functions.foldlM (declareFunction links source.2) (s, [])
  return result.1

def stampGlobal (link : Nat) (global : VarDecl P) : VarDecl P :=
  { global with
    chainLink := link
    setterBody := global.setterBody.map fun f => { f with chainLink := link }
    getterBody := global.getterBody.map fun f => { f with chainLink := link } }

def stampStruct (link : Nat) (decl : StructDecl P) : StructDecl P :=
  { decl with methods := decl.methods.map fun f => { f with chainLink := link } }

def Script.empty : Script P where
  isTool := false
  className := ""
  classNameLine := 0
  classNameColumn := 0
  baseClass := ""
  baseIsPath := false
  baseClassLine := 0
  baseClassColumn := 0
  nativeBaseClass := ""
  nativeBaseIsPath := false
  uses := []
  chain := ⟨[], [], fun _ => []⟩
  globals := []
  structs := []
  traits := []
  enums := []
  signals := []
  functions := []

/-- The merged program, once the checks have passed. -/
def assemble (links : List (ChainLink P)) (root leaf : Script P) (merging : Merging P) :
    Script P where
  isTool := links.any (·.program.isTool)
  className := leaf.className
  classNameLine := leaf.classNameLine
  classNameColumn := leaf.classNameColumn
  baseClass := leaf.baseClass
  baseIsPath := leaf.baseIsPath
  baseClassLine := leaf.baseClassLine
  baseClassColumn := leaf.baseClassColumn
  nativeBaseClass := root.baseClass
  nativeBaseIsPath := root.baseIsPath
  -- each trait at its first use
  uses := (links.flatMap (·.program.uses)).foldl
    (fun uses trait => if trait ∈ uses then uses else uses ++ [trait]) []
  chain := {
    classNames := links.map fun link => if link.program.className = "" then link.name else
      link.program.className
    paths := links.map (·.path)
    functions := merging.origins }
  globals := links.zipIdx.flatMap fun source => source.1.program.globals.map (stampGlobal source.2)
  structs := links.zipIdx.flatMap fun source => source.1.program.structs.map (stampStruct source.2)
  traits := links.flatMap (·.program.traits)
  enums := links.flatMap (·.program.enums)
  signals := links.flatMap (·.program.signals)
  functions := merging.functions

/-- A chain of two scripts or more. -/
def mergeScripts (links : List (ChainLink P)) (root leaf : ChainLink P) :
    Except SemanticError (Script P) :=
  if links.length > maxChainDepth then
    .error {
      message := "The 'extends' chain is " ++ toString links.length ++ " scripts deep, and at most " ++
        toString maxChainDepth ++ " are merged"
      file := leaf.path
      line := leaf.program.baseClassLine
      column := leaf.program.baseClassColumn
      hint := "Every base in the chain is compiled into this program" }
  else do
    let _ ← links.foldlM rejectRepeatedPath []
    let _ ← links.zipIdx.foldlM (declareNames links) (fun _ => none, fun _ => none)
    let merging ← links.zipIdx.foldlM (mergeLink links) Merging.empty
    return assemble links root.program leaf.program merging

/-- `merge_chain`: root first, leaf last. -/
def mergeChain : List (ChainLink P) → Except SemanticError (Script P)
  | [] => .ok Script.empty
  | [only] => .ok only.program
  | root :: second :: rest =>
    mergeScripts (root :: second :: rest) root ((second :: rest).getLast (List.cons_ne_nil _ _))

/-! ## 2. Symbols -/

theorem displacedSymbol_toList (link : Nat) (name : String) :
    (displacedSymbol link name).toList = "@super".toList ++
      ((Nat.repr link).toList ++ '.' :: name.toList) := by
  unfold displacedSymbol numbered
  rw [String.toList_append, String.toList_append, String.toList_append, List.append_assoc]
  rfl

variable {name : String} {link : Nat}

theorem displacedSymbol_inj {link' : Nat} {name' : String}
    (h : displacedSymbol link name = displacedSymbol link' name') :
    link = link' ∧ name = name' := by
  have hlist := congrArg String.toList h
  rw [displacedSymbol_toList, displacedSymbol_toList] at hlist
  have hrest := List.append_cancel_left hlist
  -- the link number is the run of digits at the front
  have hdigits : (Nat.repr link).toList = (Nat.repr link').toList := by
    have hrun := congrArg (List.takeWhile Char.isDigit) hrest
    rw [List.takeWhile_append_of_pos fun _ => mem_repr_isDigit,
      List.takeWhile_append_of_pos fun _ => mem_repr_isDigit] at hrun
    simpa using hrun
  rw [hdigits] at hrest
  have hname := (List.cons.inj (List.append_cancel_left hrest)).2
  refine ⟨?_, String.toList_inj.mp hname⟩
  have hnumber : numbered "" link = numbered "" link' := by
    unfold numbered
    rw [String.toList_inj.mp hdigits]
  exact (numbered_inj (by decide) (by decide) hnumber).2

theorem at_mem_displacedTraitSymbol (trait method : String) :
    '@' ∈ (displacedTraitSymbol trait method).toList := by
  unfold displacedTraitSymbol
  rw [String.toList_append, String.toList_append, String.toList_append]
  simp

namespace FunctionDecl.Named

variable {f : FunctionDecl P}

theorem not_displaced (h : f.Named) (link : Nat) (base : String) :
    f.name ≠ displacedSymbol link base := by
  intro heq
  rcases h with ⟨hplain, -⟩ | ⟨trait, htrait, -⟩
  · have hmem : '@' ∈ f.name.toList := by
      rw [heq, displacedSymbol_toList]
      exact List.mem_append_left _ (by decide)
    exact (hplain '@' hmem).1 rfl
  · have hlist := congrArg String.toList (heq.symm.trans htrait)
    rw [displacedSymbol_toList, displacedTraitSymbol, String.toList_append, String.toList_append,
      String.toList_append] at hlist
    simp at hlist

theorem name_ne_empty (h : f.Named) : f.name ≠ "" := by
  rcases h with ⟨-, hne, -⟩ | ⟨trait, htrait, -⟩
  · exact hne
  · intro hempty
    have hmem := at_mem_displacedTraitSymbol trait f.chainName
    rw [← htrait, hempty] at hmem
    cases hmem

theorem chainName_ne_name (h : f.Named) (hmoved : f.chainName ≠ "") : f.chainName ≠ f.name := by
  rcases h with ⟨-, -, hplain⟩ | ⟨trait, htrait, hmethod⟩
  · exact absurd hplain hmoved
  · intro heq
    have hmem := at_mem_displacedTraitSymbol trait f.chainName
    rw [← htrait, ← heq] at hmem
    exact (hmethod '@' hmem).1 rfl

end FunctionDecl.Named

/-! ## 3. Where the copies go -/

/-- A declaration of a link, and whether a later one of the same name has displaced it. -/
structure Copy (P : Type) where
  link : Nat
  decl : FunctionDecl P
  displaced : Bool

namespace Copy

def symbol (c : Copy P) : String :=
  if c.displaced then displacedSymbol c.link c.decl.name else c.decl.name

def function (c : Copy P) : FunctionDecl P :=
  { c.decl with
    chainLink := c.link
    name := c.symbol
    chainName := if c.displaced then c.decl.name else c.decl.chainName }

def origin (c : Copy P) : Origin := ⟨c.link, c.symbol⟩

theorem declaredName_function {c : Copy P} (hname : c.decl.name ≠ "") :
    c.function.declaredName = if c.displaced then c.decl.name else c.decl.declaredName := by
  cases hdisplaced : c.displaced <;>
    simp [function, symbol, FunctionDecl.declaredName, hdisplaced, hname]

def overriddenBy (name : String) (c : Copy P) : Copy P :=
  { c with displaced := c.displaced || decide (c.decl.name = name) }

theorem overriddenBy_of_ne {c : Copy P} (h : c.decl.name ≠ name) : c.overriddenBy name = c := by
  simp [overriddenBy, h]

theorem overriddenBy_of_displaced {c : Copy P} (h : c.displaced = true) :
    c.overriddenBy name = c := by
  cases c
  simp_all [overriddenBy]

end Copy

variable {links : List (ChainLink P)} {done : List (Nat × FunctionDecl P)} {c : Copy P} {l : Nat}

def copies : List (Nat × FunctionDecl P) → List (Copy P)
  | [] => []
  | (link, decl) :: rest => ⟨link, decl, rest.any fun later => later.2.name = decl.name⟩ :: copies rest

/-- The copies of one name, in the order of their links. -/
def copiesOf (name : String) (done : List (Nat × FunctionDecl P)) : List (Copy P) :=
  (copies done).filter (·.decl.name = name)

section

variable (done : List (Nat × FunctionDecl P))

theorem copies_map : (copies done).map (fun c => (c.link, c.decl)) = done := by
  induction done with
  | nil => rfl
  | cons d rest ih => rw [copies, List.map_cons, ih]

theorem copies_append (link : Nat) (decl : FunctionDecl P) :
    copies (done ++ [(link, decl)]) = (copies done).map (Copy.overriddenBy decl.name) ++
      [⟨link, decl, false⟩] := by
  induction done with
  | nil => rfl
  | cons d rest ih =>
    rw [List.cons_append, copies, ih, copies, List.map_cons, List.cons_append]
    congr 1
    simp [Copy.overriddenBy, eq_comm]

theorem copies_pairwise :
    (copies done).Pairwise fun c d => c.decl.name = d.decl.name → c.displaced = true := by
  induction done with
  | nil => exact .nil
  | cons d rest ih =>
    refine .cons ?_ ih
    intro c hc hname
    have hmem : (c.link, c.decl) ∈ rest := by
      rw [← copies_map rest]
      exact List.mem_map_of_mem hc
    exact List.any_eq_true.mpr ⟨_, hmem, by simpa using hname.symm⟩

end

theorem exists_undisplaced (hc : c ∈ copies done) :
    ∃ d ∈ copies done, d.decl.name = c.decl.name ∧ d.displaced = false := by
  induction done generalizing c with
  | nil => cases hc
  | cons d rest ih =>
    rcases List.mem_cons.mp hc with rfl | hc
    · by_cases hlater : rest.any (fun later => later.2.name = d.2.name) = true
      · obtain ⟨later, hmem, hname⟩ := List.any_eq_true.mp hlater
        rw [← copies_map rest] at hmem
        obtain ⟨e, he, rfl⟩ := List.mem_map.mp hmem
        obtain ⟨u, hu, huname, hun⟩ := ih he
        exact ⟨u, List.mem_cons_of_mem _ hu, huname.trans (of_decide_eq_true hname), hun⟩
      · exact ⟨_, List.mem_cons_self, rfl, Bool.eq_false_iff.mpr hlater⟩
    · obtain ⟨u, hu, huname, hun⟩ := ih hc
      exact ⟨u, List.mem_cons_of_mem _ hu, huname, hun⟩

theorem exists_later (hc : c ∈ copies done) (hdisplaced : c.displaced = true) :
    ∃ earlier later, copies done = earlier ++ c :: later ∧
      ∃ d ∈ later, d.decl.name = c.decl.name := by
  induction done with
  | nil => cases hc
  | cons d rest ih =>
    rcases List.mem_cons.mp hc with rfl | hc
    · obtain ⟨next, hmem, hname⟩ := List.any_eq_true.mp hdisplaced
      rw [← copies_map rest] at hmem
      obtain ⟨e, he, rfl⟩ := List.mem_map.mp hmem
      exact ⟨[], copies rest, rfl, e, he, of_decide_eq_true hname⟩
    · obtain ⟨earlier, later, hsplit, hlater⟩ := ih hc
      rw [copies, hsplit]
      exact ⟨_ :: earlier, later, rfl, hlater⟩

theorem mem_copiesOf :
    c ∈ copiesOf name done ↔ c ∈ copies done ∧ c.decl.name = name := by
  simp [copiesOf]

theorem copiesOf_split {earlier : List (Copy P)} {last : Copy P}
    (h : copiesOf name done = earlier ++ [last]) :
    last.displaced = false ∧ ∀ c ∈ earlier, c.displaced = true := by
  have hname : ∀ c ∈ earlier ++ [last], c ∈ copies done ∧ c.decl.name = name := by
    intro c hc
    rw [← h] at hc
    exact mem_copiesOf.mp hc
  have hpairwise : (earlier ++ [last]).Pairwise fun c d => c.decl.name = d.decl.name →
    c.displaced = true := by
    rw [← h]
    exact (copies_pairwise done).filter _
  have hlast := hname last (by simp)
  have hearlier : ∀ c ∈ earlier, c.displaced = true := by
    intro c hc
    refine (List.pairwise_append.mp hpairwise).2.2 c hc last (by simp) ?_
    rw [(hname c (List.mem_append_left _ hc)).2, hlast.2]
  refine ⟨?_, hearlier⟩
  obtain ⟨u, hu, huname, hun⟩ := exists_undisplaced hlast.1
  have hmem : u ∈ earlier ++ [last] := by
    rw [← h]
    exact mem_copiesOf.mpr ⟨hu, huname.trans hlast.2⟩
  rcases List.mem_append.mp hmem with hu | hu
  · rw [hearlier u hu] at hun
    cases hun
  · rw [← List.mem_singleton.mp hu]
    exact hun

theorem copiesOf_append (done : List (Nat × FunctionDecl P)) (link : Nat) (decl : FunctionDecl P)
    (name : String) :
    copiesOf name (done ++ [(link, decl)]) =
      (copiesOf name done).map (Copy.overriddenBy decl.name) ++
        if decl.name = name then [⟨link, decl, false⟩] else [] := by
  unfold copiesOf
  rw [copies_append, List.filter_append, List.filter_map]
  congr 1
  by_cases hname : decl.name = name
  · simp [hname]
  · simp [hname]

theorem getElem?_concat_eq_some {α : Type} {l : List α} {x y : α} {i : Nat} :
    (l ++ [x])[i]? = some y ↔ l[i]? = some y ∨ (i = l.length ∧ y = x) := by
  by_cases hi : i < l.length
  · rw [List.getElem?_append_left hi]
    simp [Nat.ne_of_lt hi]
  · have hnone : l[i]? = none := List.getElem?_eq_none (Nat.le_of_not_lt hi)
    rw [List.getElem?_append_right (Nat.le_of_not_lt hi), List.getElem?_singleton, hnone]
    by_cases heq : i = l.length
    · simp [heq, eq_comm]
    · have hpast : i - l.length ≠ 0 := by omega
      rw [if_neg hpast]
      simp [heq]

/-! ## 4. The loop -/

/-- The state of the merge after these declarations. -/
structure Tracks (s : Merging P) (done : List (Nat × FunctionDecl P)) : Prop where
  functions : s.functions = (copies done).map Copy.function
  origins : ∀ name, s.origins name = (copiesOf name done).map Copy.origin
  visible : ∀ name i, s.visible name = some i ↔
    ∃ c, (copies done)[i]? = some c ∧ c.decl.name = name ∧ c.displaced = false

theorem tracks_empty : Tracks (Merging.empty : Merging P) [] where
  functions := rfl
  origins _ := rfl
  visible name i := by simp [Merging.empty, copies]

namespace Tracks

variable {s : Merging P} {earlier : List (Copy P)} {last : Copy P}

theorem displaced_functions (h : Tracks s done) (hsplit : copiesOf name done = earlier ++ [last])
    {i : Nat} (hi : s.visible name = some i) :
    s.functions.modify i (fun f =>
      { f with chainName := name, name := displacedSymbol last.link name }) =
      ((copies done).map (Copy.overriddenBy name)).map Copy.function := by
  apply List.ext_getElem?
  intro j
  rw [h.functions, List.getElem?_modify, List.getElem?_map, List.getElem?_map, List.getElem?_map]
  cases hj : (copies done)[j]? with
  | none => split <;> rfl
  | some c =>
    by_cases hij : i = j
    · subst hij
      obtain ⟨c', hc', hname, hundisplaced⟩ := (h.visible name i).mp hi
      obtain rfl : c = c' := Option.some.inj (hj.symm.trans hc')
      have hmem : c ∈ earlier ++ [last] := by
        rw [← hsplit]
        exact mem_copiesOf.mpr ⟨List.mem_of_getElem? hj, hname⟩
      have hlast : c = last := by
        rcases List.mem_append.mp hmem with hc | hc
        · rw [(copiesOf_split hsplit).2 c hc] at hundisplaced
          cases hundisplaced
        · exact List.mem_singleton.mp hc
      subst hlast
      simp [Copy.function, Copy.symbol, Copy.overriddenBy, hname, hundisplaced]
    · have hkept : c.overriddenBy name = c := by
        by_cases hname : c.decl.name = name
        · apply Copy.overriddenBy_of_displaced
          by_contra hundisplaced
          have hvisible := (h.visible name j).mpr ⟨c, hj, hname, Bool.eq_false_iff.mpr hundisplaced⟩
          exact hij (Option.some.inj (hi.symm.trans hvisible))
        · exact Copy.overriddenBy_of_ne hname
      simp [hij, hkept]

theorem displaced_origins (hsplit : copiesOf name done = earlier ++ [last]) :
    (earlier.map Copy.origin) ++ [⟨last.link, displacedSymbol last.link name⟩] =
      ((copiesOf name done).map (Copy.overriddenBy name)).map Copy.origin := by
  obtain ⟨hundisplaced, hdisplaced⟩ := copiesOf_split hsplit
  have hname : last.decl.name = name := (mem_copiesOf.mp (by rw [hsplit]; simp)).2
  rw [hsplit, List.map_append, List.map_append]
  congr 1
  · rw [List.map_map]
    apply List.map_congr_left
    intro c hc
    rw [Function.comp_apply, Copy.overriddenBy_of_displaced (hdisplaced c hc)]
  · simp [Copy.origin, Copy.symbol, Copy.overriddenBy, hname]

/-- Once the earlier copy of its name has moved, a declaration goes to the end. -/
theorem push {t : Merging P} {decl : FunctionDecl P} (h : Tracks s done) (link : Nat)
    (hfunctions : t.functions = ((copies done).map (Copy.overriddenBy decl.name)).map Copy.function)
    (horigins : ∀ n,
      t.origins n = ((copiesOf n done).map (Copy.overriddenBy decl.name)).map Copy.origin)
    (hvisible : t.visible = s.visible) :
    Tracks (t.push link decl) (done ++ [(link, decl)]) where
  functions := by
    rw [copies_append, List.map_append, ← hfunctions]
    rfl
  origins n := by
    rw [copiesOf_append, List.map_append, ← horigins, Merging.push]
    by_cases hname : decl.name = n
    · subst hname
      simp [Copy.origin, Copy.symbol]
    · simp [hname, Function.update_of_ne (Ne.symm hname)]
  visible n i := by
    have hlength : t.functions.length = ((copies done).map (Copy.overriddenBy decl.name)).length := by
      rw [hfunctions, List.length_map]
    show Function.update t.visible decl.name (some t.functions.length) n = some i ↔ _
    rw [copies_append, hlength, hvisible]
    by_cases hname : n = decl.name
    · subst hname
      rw [Function.update_self]
      constructor
      · intro hi
        cases hi
        exact ⟨_, List.getElem?_concat_length, rfl, rfl⟩
      · rintro ⟨c, hc, hcname, hundisplaced⟩
        rcases getElem?_concat_eq_some.mp hc with hc | ⟨rfl, -⟩
        · rw [List.getElem?_map] at hc
          obtain ⟨c', -, rfl⟩ := Option.map_eq_some_iff.mp hc
          have hcname : c'.decl.name = decl.name := hcname
          simp [Copy.overriddenBy, hcname] at hundisplaced
        · rfl
    · rw [Function.update_of_ne hname, h.visible n i]
      constructor
      · rintro ⟨c, hc, hcname, hundisplaced⟩
        have hkept : c.overriddenBy decl.name = c := Copy.overriddenBy_of_ne (hcname ▸ hname)
        refine ⟨c, getElem?_concat_eq_some.mpr (.inl ?_), hcname, hundisplaced⟩
        rw [List.getElem?_map, hc, Option.map_some, hkept]
      · rintro ⟨c, hc, hcname, hundisplaced⟩
        rcases getElem?_concat_eq_some.mp hc with hc | ⟨-, rfl⟩
        · rw [List.getElem?_map] at hc
          obtain ⟨c', hc', rfl⟩ := Option.map_eq_some_iff.mp hc
          have hcname : c'.decl.name = n := hcname
          have hkept : c'.overriddenBy decl.name = c' := Copy.overriddenBy_of_ne (hcname ▸ hname)
          rw [hkept] at hundisplaced
          exact ⟨c', hc', hcname, hundisplaced⟩
        · exact absurd hcname.symm hname

theorem declare (h : Tracks s done) {t : Merging P} {decl : FunctionDecl P}
    (ht : s.declare link decl = .ok t) :
    Tracks t (done ++ [(link, decl)]) := by
  unfold Merging.declare at ht
  cases hlast : (s.origins decl.name).getLast? with
  | none =>
    rw [hlast] at ht
    cases ht
    have hempty : copiesOf decl.name done = [] := by
      rw [h.origins] at hlast
      simpa using hlast
    have hother : ∀ c ∈ copies done, c.overriddenBy decl.name = c := by
      intro c hc
      apply Copy.overriddenBy_of_ne
      intro hname
      have hmem := mem_copiesOf.mpr ⟨hc, hname⟩
      rw [hempty] at hmem
      cases hmem
    have hmap : (copies done).map (Copy.overriddenBy decl.name) = copies done :=
      (List.map_congr_left hother).trans (List.map_id _)
    refine h.push link ?_ (fun n => ?_) rfl
    · rw [hmap, h.functions]
    · rw [h.origins, List.map_congr_left fun c hc => hother c (mem_copiesOf.mp hc).1, List.map_id']
  | some displaced =>
    rw [hlast] at ht
    obtain ⟨moved, hmoved, ht⟩ := bind_eq_ok.mp ht
    cases ht
    unfold Merging.displace at hmoved
    rw [h.origins, List.getLast?_map] at hlast
    obtain ⟨last, hcopy, rfl⟩ := Option.map_eq_some_iff.mp hlast
    obtain ⟨earlier, hsplit⟩ := List.getLast?_eq_some_iff.mp hcopy
    cases hvisible : s.visible decl.name with
    | none =>
      rw [hvisible] at hmoved
      cases hmoved
    | some previous =>
      rw [hvisible] at hmoved
      cases hmoved
      refine h.push link (h.displaced_functions hsplit hvisible) (fun n => ?_) rfl
      by_cases hname : n = decl.name
      · subst hname
        rw [← displaced_origins hsplit]
        simp [h.origins, hsplit, Copy.origin]
      · have hkept : ∀ c ∈ copiesOf n done, c.overriddenBy decl.name = c := by
          intro c hc
          apply Copy.overriddenBy_of_ne
          rw [(mem_copiesOf.mp hc).2]
          exact hname
        simp only [Function.update_of_ne hname]
        rw [h.origins, List.map_congr_left hkept, List.map_id']

end Tracks

/-- The declarations of a chain whose first script is link `start`. -/
def declarations (links : List (ChainLink P)) (start : Nat) : List (Nat × FunctionDecl P) :=
  (links.zipIdx start).flatMap fun source => source.1.functions.map (source.2, ·)

theorem declarations_cons (link : ChainLink P) (links : List (ChainLink P)) (start : Nat) :
    declarations (link :: links) start = link.functions.map (start, ·) ++ declarations links
      (start + 1) := by
  simp [declarations, List.zipIdx_cons]

theorem declareFunctions_ok {decls : List (FunctionDecl P)} {s : Merging P} {here : List String}
    {result : Merging P × List String} (h : Tracks s done)
    (hresult : decls.foldlM (declareFunction links link) (s, here) = .ok result) :
    Tracks result.1 (done ++ decls.map (link, ·)) ∧ (decls.map (·.name)).Nodup ∧
      ∀ f ∈ decls, f.name ∉ here := by
  induction decls generalizing s here done with
  | nil =>
    cases hresult
    simpa using h
  | cons decl decls ih =>
    rw [List.foldlM_cons] at hresult
    obtain ⟨next, hnext, hresult⟩ := bind_eq_ok.mp hresult
    unfold declareFunction at hnext
    split at hnext
    · cases hnext
    · rename_i hfresh
      obtain ⟨merging, hmerging, hpure⟩ := bind_eq_ok.mp hnext
      cases hpure
      obtain ⟨htracks, hnodup, hnot⟩ := ih (h.declare hmerging) hresult
      refine ⟨by simpa using htracks, ?_, ?_⟩
      · rw [List.map_cons, List.nodup_cons]
        refine ⟨fun hmem => ?_, hnodup⟩
        obtain ⟨f, hf, hname⟩ := List.mem_map.mp hmem
        exact hnot f hf (hname ▸ List.mem_cons_self)
      · intro f hf
        rcases List.mem_cons.mp hf with rfl | hf
        · exact hfresh
        · exact fun hmem => hnot f hf (List.mem_cons_of_mem _ hmem)

theorem mergeLinks_ok {all : List (ChainLink P)} {start : Nat} {s t : Merging P} (h : Tracks s done)
    (ht : (links.zipIdx start).foldlM (mergeLink all) s = .ok t) :
    Tracks t (done ++ declarations links start) ∧
      ∀ link ∈ links, (link.functions.map (·.name)).Nodup := by
  induction links generalizing s done start with
  | nil =>
    cases ht
    simpa [declarations] using h
  | cons link links ih =>
    rw [List.zipIdx_cons, List.foldlM_cons] at ht
    obtain ⟨next, hnext, ht⟩ := bind_eq_ok.mp ht
    obtain ⟨result, hresult, hpure⟩ := bind_eq_ok.mp hnext
    cases hpure
    obtain ⟨htracks, hnodup, -⟩ := declareFunctions_ok h hresult
    obtain ⟨hrest, hnodups⟩ := ih htracks ht
    rw [declarations_cons, ← List.append_assoc]
    exact ⟨hrest, List.forall_mem_cons.mpr ⟨hnodup, hnodups⟩⟩

/-- The tables of a merged program, and what the merge has checked. -/
structure Assembled (links : List (ChainLink P)) (script : Script P) : Prop where
  functions : script.functions = (copies (declarations links 0)).map Copy.function
  origins : ∀ name, script.chain.functions name = (copiesOf name (declarations links 0)).map Copy.origin
  nodups : ∀ link ∈ links, (link.functions.map (·.name)).Nodup

theorem mergeScripts_ok {root leaf : ChainLink P} {script : Script P}
    (h : mergeScripts links root leaf = .ok script) :
    Assembled links script := by
  unfold mergeScripts at h
  split at h
  · cases h
  · obtain ⟨_, -, h⟩ := bind_eq_ok.mp h
    obtain ⟨_, -, h⟩ := bind_eq_ok.mp h
    obtain ⟨merging, hmerging, hpure⟩ := bind_eq_ok.mp h
    cases hpure
    obtain ⟨htracks, hnodups⟩ := mergeLinks_ok tracks_empty hmerging
    exact ⟨htracks.functions, htracks.origins, hnodups⟩

/-! ## 5. Calls -/

theorem mem_declarations {start : Nat} {f : FunctionDecl P} :
    (l, f) ∈ declarations links start ↔ start ≤ l ∧ ∃ link, links[l - start]? = some link ∧
      f ∈ link.functions := by
  unfold declarations
  rw [List.mem_flatMap]
  constructor
  · rintro ⟨⟨link, l'⟩, hlink, hf⟩
    obtain ⟨f', hf', heq⟩ := List.mem_map.mp hf
    cases heq
    obtain ⟨hle, hget⟩ := List.mem_zipIdx_iff_le_and_getElem?_sub.mp hlink
    exact ⟨hle, link, hget, hf'⟩
  · rintro ⟨hle, link, hget, hf⟩
    exact ⟨(link, l), List.mem_zipIdx_iff_le_and_getElem?_sub.mpr ⟨hle, hget⟩, List.mem_map_of_mem hf⟩

theorem declarations_pairwise (start : Nat)
    (hnodups : ∀ link ∈ links, (link.functions.map (·.name)).Nodup) :
    (declarations links start).Pairwise fun a b => a.1 < b.1 ∨
      (a.1 = b.1 ∧ a.2.name ≠ b.2.name) := by
  induction links generalizing start with
  | nil => exact .nil
  | cons link links ih =>
    obtain ⟨hnodup, hnodups⟩ := List.forall_mem_cons.mp hnodups
    rw [declarations_cons, List.pairwise_append]
    refine ⟨?_, ih (start + 1) hnodups, ?_⟩
    · rw [List.pairwise_map]
      exact (List.pairwise_map.mp hnodup).imp fun hne => .inr ⟨rfl, hne⟩
    · intro a ha b hb
      obtain ⟨f, -, rfl⟩ := List.mem_map.mp ha
      exact .inl (mem_declarations.mp hb).1

def Declares (links : List (ChainLink P)) (l : Nat) (name : String) : Prop :=
  ∃ link, links[l]? = some link ∧ name ∈ link.functions.map (·.name)

/-- The merged function at the place of the declaration of the name in link `l`. -/
def IsDeclaration (links : List (ChainLink P)) (script : Script P) (l : Nat) (name : String)
    (f : FunctionDecl P) : Prop :=
  ∃ i : Nat, ∃ decl : FunctionDecl P,
    (declarations links 0)[i]? = some (l, decl) ∧ decl.name = name ∧ script.functions[i]? = some f

/-- A super call from link `l` that looks `asked` up reaches the nearest declaration of `name` below
the link, and nothing when there is none. -/
structure SuperReaches (links : List (ChainLink P)) (script : Script P) (l : Nat)
    (asked name : String) : Prop where
  nearest : ∀ k, k < l → Declares links k name → (∀ k', k < k' → k' < l → ¬Declares links k' name) →
    ∃ origin f, script.chain.superOf asked l = some origin ∧ script.callee origin.symbol = some f ∧
      IsDeclaration links script k name f
  nothing : (∀ k, k < l → ¬Declares links k name) → script.chain.superOf asked l = none

/-- What the merge makes of a declaration of a link. -/
structure Merges (links : List (ChainLink P)) (script : Script P) (d : Nat × FunctionDecl P)
    (f : FunctionDecl P) : Prop where
  copy : f = { d.2 with name := f.name, chainLink := d.1, chainName := f.chainName }
  -- `super.name()`
  supers : ∀ name, SuperReaches links script f.chainLink name name
  -- `super()` is a call of the name under which the body was declared
  ownSuper : SuperReaches links script f.chainLink f.declaredName d.2.declaredName

/-- What calls in the merged program reach. -/
structure Resolves (links : List (ChainLink P)) (script : Script P) : Prop where
  distinct : (script.functions.map (·.name)).Nodup
  merged : List.Forall₂ (Merges links script) (declarations links 0) script.functions
  -- the leaf-most declaration
  calls : ∀ name l, Declares links l name → (∀ l', l < l' → ¬Declares links l' name) →
    ∃ f, script.callee name = some f ∧ IsDeclaration links script l name f

/-- Where a trait's method that a script overrides is overridden again further down, together with
the trait's method itself, no script above declares either. -/
def TraitsKeptOnce (links : List (ChainLink P)) : Prop :=
  ∀ l f, (l, f) ∈ declarations links 0 → f.chainName ≠ "" → ∀ l', l < l' → Declares links l' f.name →
    ∀ k, k < l → ¬Declares links k f.chainName ∧ ¬Declares links k f.name

theorem callee_of_distinct {script : Script P} (hdistinct : (script.functions.map (·.name)).Nodup)
    {f : FunctionDecl P} (hf : f ∈ script.functions) :
    script.callee f.name = some f := by
  unfold Script.callee
  have hexists : (script.functions.reverse.find? (·.name = f.name)).isSome = true := by
    rw [List.find?_isSome]
    exact ⟨f, List.mem_reverse.mpr hf, by simp⟩
  obtain ⟨g, hg⟩ := Option.isSome_iff_exists.mp hexists
  have hname : g.name = f.name := by simpa using List.find?_some hg
  have hmem : g ∈ script.functions := List.mem_reverse.mp (List.mem_of_find?_eq_some hg)
  rw [hg, List.inj_on_of_nodup_map hdistinct hmem hf hname]

section Merged

theorem mem_copies (hc : c ∈ copies (declarations links 0)) :
    ∃ link, links[c.link]? = some link ∧ c.decl ∈ link.functions := by
  have hmem : (c.link, c.decl) ∈ declarations links 0 := by
    rw [← copies_map (declarations links 0)]
    exact List.mem_map_of_mem hc
  exact (mem_declarations.mp hmem).2

theorem copy_named (hc : c ∈ copies (declarations links 0)) : c.decl.Named := by
  obtain ⟨link, -, hdecl⟩ := mem_copies hc
  exact link.named c.decl hdecl

theorem exists_copy (h : Declares links l name) :
    ∃ c ∈ copies (declarations links 0), c.link = l ∧ c.decl.name = name := by
  obtain ⟨link, hlink, hname⟩ := h
  obtain ⟨f, hf, rfl⟩ := List.mem_map.mp hname
  have hmem : (l, f) ∈ declarations links 0 := mem_declarations.mpr ⟨Nat.zero_le l, link, hlink, hf⟩
  rw [← copies_map (declarations links 0)] at hmem
  obtain ⟨c, hc, heq⟩ := List.mem_map.mp hmem
  cases heq
  exact ⟨c, hc, rfl, rfl⟩

theorem declares_of_copy (hc : c ∈ copies (declarations links 0)) :
    Declares links c.link c.decl.name := by
  obtain ⟨link, hlink, hdecl⟩ := mem_copies hc
  exact ⟨link, hlink, List.mem_map_of_mem hdecl⟩

section

variable (hnodups : ∀ link ∈ links, (link.functions.map (·.name)).Nodup)
include hnodups

theorem copies_ordered :
    (copies (declarations links 0)).Pairwise fun c d =>
      c.link < d.link ∨ (c.link = d.link ∧ c.decl.name ≠ d.decl.name) := by
  have hordered := declarations_pairwise 0 hnodups
  rw [← copies_map (declarations links 0), List.pairwise_map] at hordered
  exact hordered

theorem symbols_distinct :
    (((copies (declarations links 0)).map Copy.function).map (·.name)).Nodup := by
  rw [List.Nodup, List.pairwise_map, List.pairwise_map]
  refine ((copies_ordered hnodups).and (copies_pairwise _)).imp_of_mem ?_
  intro c d hc hd horder hsymbol
  replace hsymbol : c.symbol = d.symbol := hsymbol
  unfold Copy.symbol at hsymbol
  split at hsymbol
  · split at hsymbol
    · obtain ⟨hlink, hname⟩ := displacedSymbol_inj hsymbol
      rcases horder.1 with hlt | ⟨-, hne⟩
      · omega
      · exact hne hname
    · exact (copy_named hd).not_displaced _ _ hsymbol.symm
  · rename_i hundisplaced
    split at hsymbol
    · exact (copy_named hc).not_displaced _ _ hsymbol
    · exact hundisplaced (horder.2 hsymbol)

theorem link_le_last {q : Copy P → Bool} {last : Copy P}
    (hlast : ((copiesOf name (declarations links 0)).filter q).getLast? = some last)
    (hc : c ∈ (copiesOf name (declarations links 0)).filter q) :
    c.link ≤ last.link := by
  have hordered : ((copiesOf name (declarations links 0)).filter q).Pairwise _ :=
    ((copies_ordered hnodups).filter _).filter q
  obtain ⟨earlier, hsplit⟩ := List.getLast?_eq_some_iff.mp hlast
  rw [hsplit] at hordered hc
  rcases List.mem_append.mp hc with hc | hc
  · rcases (List.pairwise_append.mp hordered).2.2 c hc last (by simp) with hlt | ⟨heq, -⟩
    · exact hlt.le
    · exact heq.le
  · rw [List.mem_singleton.mp hc]

theorem nearest_copy {q : Nat → Bool} (hdeclares : Declares links l name) (hl : q l = true)
    (hnearest : ∀ l', l < l' → q l' = true → ¬Declares links l' name) :
    ∃ c ∈ copies (declarations links 0), c.link = l ∧ c.decl.name = name ∧
      ((copiesOf name (declarations links 0)).filter fun c => q c.link).getLast? = some c := by
  obtain ⟨e, he, rfl, hname⟩ := exists_copy hdeclares
  have hmem : e ∈ (copiesOf name (declarations links 0)).filter fun c => q c.link :=
    List.mem_filter.mpr ⟨mem_copiesOf.mpr ⟨he, hname⟩, hl⟩
  obtain ⟨c, hlast⟩ := Option.isSome_iff_exists.mp (List.getLast?_isSome.mpr (List.ne_nil_of_mem hmem))
  have hc := List.mem_filter.mp (List.mem_of_getLast? hlast)
  obtain ⟨hcopy, hcname⟩ := mem_copiesOf.mp hc.1
  refine ⟨c, hcopy, ?_, hcname, hlast⟩
  have hle : e.link ≤ c.link := link_le_last hnodups hlast hmem
  by_contra hne
  exact hnearest c.link (by omega) hc.2 (hcname ▸ declares_of_copy hcopy)

theorem displaced_of_declared_later (hc : c ∈ copies (declarations links 0)) (hl : c.link < l)
    (hlater : Declares links l c.decl.name) :
    c.displaced = true := by
  obtain ⟨d, hd, rfl, hname⟩ := exists_copy hlater
  obtain ⟨earlier, later, hsplit⟩ := List.append_of_mem hd
  have hordered := copies_ordered hnodups
  have hpairwise := copies_pairwise (declarations links 0)
  rw [hsplit, List.pairwise_append] at hordered hpairwise
  rw [hsplit] at hc
  rcases List.mem_append.mp hc with hc | hc
  · exact hpairwise.2.2 c hc d List.mem_cons_self hname.symm
  · rcases List.mem_cons.mp hc with rfl | hc
    · omega
    · rcases (List.pairwise_cons.mp hordered.2.1).1 c hc with hlt | ⟨heq, -⟩ <;> omega

theorem declared_later_of_displaced (hc : c ∈ copies (declarations links 0))
    (hdisplaced : c.displaced = true) :
    ∃ l, c.link < l ∧ Declares links l c.decl.name := by
  obtain ⟨earlier, later, hsplit, d, hd, hname⟩ := exists_later hc hdisplaced
  have hordered := copies_ordered hnodups
  rw [hsplit, List.pairwise_append] at hordered
  have hmem : d ∈ copies (declarations links 0) := by
    rw [hsplit]
    exact List.mem_append_right _ (List.mem_cons_of_mem _ hd)
  refine ⟨d.link, ?_, hname ▸ declares_of_copy hmem⟩
  rcases (List.pairwise_cons.mp hordered.2.1).1 d hd with hlt | ⟨-, hne⟩
  · exact hlt
  · exact absurd hname.symm hne

end

end Merged

theorem exists_nearest {k : Nat} (hk : k < l) (h : Declares links k name) :
    ∃ m, m < l ∧ Declares links m name ∧ ∀ k', m < k' → k' < l → ¬Declares links k' name := by
  classical
  refine ⟨Nat.findGreatest (Declares links · name) (l - 1), ?_, ?_, ?_⟩
  · have hle := Nat.findGreatest_le (P := (Declares links · name)) (l - 1)
    omega
  · exact Nat.findGreatest_spec (P := (Declares links · name)) (by omega) h
  · intro k' hlt hk'
    exact Nat.findGreatest_is_greatest hlt (by omega)

section Calls

variable {script : Script P}

theorem IsDeclaration.name_unique (hdistinct : (script.functions.map (·.name)).Nodup) {k : Nat}
    {name name' : String} {f : FunctionDecl P} (h : IsDeclaration links script k name f)
    (h' : IsDeclaration links script l name' f) :
    name = name' := by
  obtain ⟨i, decl, hi, rfl, hf⟩ := h
  obtain ⟨j, decl', hj, rfl, hf'⟩ := h'
  obtain ⟨hlt, -⟩ := List.getElem?_eq_some_iff.mp hf
  obtain rfl : i = j :=
    (List.getElem?_inj hlt (List.Nodup.of_map _ hdistinct)).mp (hf.trans hf'.symm)
  cases hi.symm.trans hj
  rfl

/-- One lookup does not serve two names, when one of them is declared below. -/
theorem SuperReaches.name_unique (hdistinct : (script.functions.map (·.name)).Nodup) {k : Nat}
    {asked name name' : String} (h : SuperReaches links script l asked name)
    (h' : SuperReaches links script l asked name') (hk : k < l)
    (hdeclares : Declares links k name) :
    name = name' := by
  obtain ⟨m, hm, hdeclares, hnearest⟩ := exists_nearest hk hdeclares
  obtain ⟨origin, f, hfound, hcallee, hf⟩ := h.nearest m hm hdeclares hnearest
  by_cases hbelow : ∃ k', k' < l ∧ Declares links k' name'
  · obtain ⟨k', hk', hdeclares'⟩ := hbelow
    obtain ⟨m', hm', hdeclares', hnearest'⟩ := exists_nearest hk' hdeclares'
    obtain ⟨origin', f', hfound', hcallee', hf'⟩ := h'.nearest m' hm' hdeclares' hnearest'
    cases hfound.symm.trans hfound'
    cases hcallee.symm.trans hcallee'
    exact hf.name_unique hdistinct hf'
  · have hnone := h'.nothing fun k' hk' hdeclares' => hbelow ⟨k', hk', hdeclares'⟩
    rw [hfound] at hnone
    cases hnone

namespace Assembled

variable (h : Assembled links script)
include h

theorem distinct : (script.functions.map (·.name)).Nodup := by
  rw [h.functions]
  exact symbols_distinct h.nodups

theorem callee_symbol (hc : c ∈ copies (declarations links 0)) :
    script.callee c.symbol = some c.function := by
  refine callee_of_distinct h.distinct (f := c.function) ?_
  rw [h.functions]
  exact List.mem_map_of_mem hc

theorem isDeclaration (hc : c ∈ copies (declarations links 0)) :
    IsDeclaration links script c.link c.decl.name c.function := by
  obtain ⟨i, hi⟩ := List.mem_iff_getElem?.mp hc
  refine ⟨i, c.decl, ?_, rfl, ?_⟩
  · rw [← copies_map (declarations links 0), List.getElem?_map, hi]
    rfl
  · rw [h.functions, List.getElem?_map, hi]
    rfl

theorem superOf_eq (name : String) (l : Nat) :
    script.chain.superOf name l =
      (((copiesOf name (declarations links 0)).filter fun c => decide (c.link < l)).getLast?).map
        Copy.origin := by
  unfold ChainInfo.superOf
  rw [h.origins, List.filter_map, List.getLast?_map]
  rfl

theorem superReaches (l : Nat) (name : String) : SuperReaches links script l name name where
  nearest k hk hdeclares hnearest := by
    obtain ⟨c, hc, rfl, rfl, hlast⟩ := nearest_copy (q := fun k' => decide (k' < l)) h.nodups hdeclares
      (decide_eq_true hk) fun k' hk' hbelow => hnearest k' hk' (of_decide_eq_true hbelow)
    refine ⟨c.origin, c.function, ?_, h.callee_symbol hc, h.isDeclaration hc⟩
    rw [h.superOf_eq, hlast]
    rfl
  nothing hnone := by
    rw [h.superOf_eq, Option.map_eq_none_iff, List.getLast?_eq_none_iff, List.filter_eq_nil_iff]
    intro c hc hbelow
    obtain ⟨hcopy, rfl⟩ := mem_copiesOf.mp hc
    exact hnone c.link (of_decide_eq_true hbelow) (declares_of_copy hcopy)

theorem calls (hdeclares : Declares links l name)
    (hleafmost : ∀ l', l < l' → ¬Declares links l' name) :
    ∃ f, script.callee name = some f ∧ IsDeclaration links script l name f := by
  obtain ⟨c, hc, rfl, rfl, hlast⟩ :=
    nearest_copy (q := fun _ => true) h.nodups hdeclares rfl fun l' hl' _ => hleafmost l' hl'
  rw [List.filter_true] at hlast
  obtain ⟨earlier, hsplit⟩ := List.getLast?_eq_some_iff.mp hlast
  have hsymbol : c.symbol = c.decl.name := by simp [Copy.symbol, (copiesOf_split hsplit).1]
  exact ⟨c.function, hsymbol ▸ h.callee_symbol hc, h.isDeclaration hc⟩

theorem merged_iff :
    List.Forall₂ (Merges links script) (declarations links 0) script.functions ↔
      ∀ c ∈ copies (declarations links 0), Merges links script (c.link, c.decl) c.function := by
  have hmap := copies_map (declarations links 0)
  rw [h.functions]
  nth_rewrite 1 [← hmap]
  rw [List.forall₂_map_left_iff, List.forall₂_map_right_iff, List.forall₂_same]

/-- A displaced copy looks its symbol up, which is the declared name unless a trait had moved it
already. -/
theorem ownSuper (hkept : TraitsKeptOnce links) (hc : c ∈ copies (declarations links 0)) :
    SuperReaches links script c.link c.function.declaredName c.decl.declaredName := by
  rw [Copy.declaredName_function (copy_named hc).name_ne_empty]
  split
  · rename_i hdisplaced
    by_cases hmoved : c.decl.chainName = ""
    · rw [FunctionDecl.declaredName, if_pos hmoved]
      exact h.superReaches c.link c.decl.name
    · obtain ⟨l, hl, hlater⟩ := declared_later_of_displaced h.nodups hc hdisplaced
      have hmem : (c.link, c.decl) ∈ declarations links 0 := by
        rw [← copies_map (declarations links 0)]
        exact List.mem_map_of_mem hc
      have habove := hkept c.link c.decl hmem hmoved l hl hlater
      rw [FunctionDecl.declaredName, if_neg hmoved]
      exact {
        nearest := fun k hk hdeclares => absurd hdeclares (habove k hk).1
        nothing := fun _ => (h.superReaches c.link c.decl.name).nothing fun k hk => (habove k hk).2 }
  · exact h.superReaches c.link c.decl.declaredName

theorem resolves (hkept : TraitsKeptOnce links) : Resolves links script where
  distinct := h.distinct
  merged := h.merged_iff.mpr fun c hc => {
    copy := rfl
    supers := h.superReaches c.link
    ownSuper := h.ownSuper hkept hc }
  calls _ _ := h.calls

theorem traitsKeptOnce (hresolves : Resolves links script) : TraitsKeptOnce links := by
  intro l f hf hmoved l' hl' hlater k hk
  rw [← copies_map (declarations links 0)] at hf
  obtain ⟨c, hc, heq⟩ := List.mem_map.mp hf
  cases heq
  have hnamed := copy_named hc
  have hown : SuperReaches links script c.link c.function.declaredName c.decl.declaredName :=
    (h.merged_iff.mp hresolves.merged c hc).ownSuper
  rw [Copy.declaredName_function hnamed.name_ne_empty,
    if_pos (displaced_of_declared_later h.nodups hc hl' hlater), FunctionDecl.declaredName,
    if_neg hmoved] at hown
  have hplain := h.superReaches c.link c.decl.name
  have hne := hnamed.chainName_ne_name hmoved
  constructor
  · intro hdeclares
    exact hne (hown.name_unique h.distinct hplain hk hdeclares)
  · intro hdeclares
    exact hne (hplain.name_unique h.distinct hown hk hdeclares).symm

end Assembled

theorem superReaches_root (hunmerged : ∀ n, script.chain.functions n = []) (asked name : String) :
    SuperReaches links script 0 asked name where
  nearest k hk := absurd hk (Nat.not_lt_zero k)
  nothing _ := by
    unfold ChainInfo.superOf
    rw [hunmerged]
    rfl

end Calls

theorem declarations_singleton (only : ChainLink P) :
    declarations [only] 0 = only.functions.map (0, ·) := by
  rw [declarations_cons]
  exact List.append_nil _

theorem only_resolves {only : ChainLink P} (hdistinct : (only.functions.map (·.name)).Nodup) :
    Resolves [only] only.program where
  distinct := hdistinct
  merged := by
    rw [declarations_singleton, List.forall₂_map_left_iff]
    refine List.forall₂_same.mpr fun f hf => ?_
    have hroot : f.chainLink = 0 := only.unlinked f hf
    refine ⟨?_, ?_, ?_⟩
    · rw [← hroot]
    · rw [hroot]
      exact fun name => superReaches_root only.unmerged name name
    · rw [hroot]
      exact superReaches_root only.unmerged _ _
  calls name l hdeclares _ := by
    obtain ⟨link, hlink, hname⟩ := hdeclares
    obtain ⟨rfl, rfl⟩ : l = 0 ∧ only = link := by
      rw [List.getElem?_singleton] at hlink
      split at hlink
      · exact ⟨‹_›, Option.some.inj hlink⟩
      · cases hlink
    obtain ⟨f, hf, rfl⟩ := List.mem_map.mp hname
    obtain ⟨i, hi⟩ := List.mem_iff_getElem?.mp hf
    refine ⟨f, callee_of_distinct hdistinct hf, i, f, ?_, rfl, hi⟩
    rw [declarations_singleton, List.getElem?_map, hi]
    rfl

theorem empty_resolves : Resolves ([] : List (ChainLink P)) Script.empty where
  distinct := List.nodup_nil
  merged := .nil
  calls name l hdeclares := by
    obtain ⟨link, hlink, -⟩ := hdeclares
    cases hlink

theorem traitsKeptOnce_of_length_le (h : links.length ≤ 1) : TraitsKeptOnce links := by
  intro l f _ _ l' hl' hlater
  obtain ⟨link, hlink, -⟩ := hlater
  obtain ⟨hlt, -⟩ := List.getElem?_eq_some_iff.mp hlink
  omega

/-- A chain that merges resolves its calls, unless it is one script that declares a function twice,
or a trait's method is moved out of the way twice. -/
theorem mergeChain_resolves_iff {script : Script P} (h : mergeChain links = .ok script) :
    Resolves links script ↔
      (links.length = 1 → ∀ link ∈ links, (link.functions.map (·.name)).Nodup) ∧
        TraitsKeptOnce links := by
  match links with
  | [] =>
    cases h
    simp [empty_resolves, traitsKeptOnce_of_length_le]
  | [only] =>
    cases h
    constructor
    · intro hresolves
      refine ⟨fun _ link hlink => ?_, traitsKeptOnce_of_length_le le_rfl⟩
      rw [List.mem_singleton.mp hlink]
      exact hresolves.distinct
    · intro hnodup
      exact only_resolves (hnodup.1 rfl only List.mem_cons_self)
  | root :: second :: rest =>
    have hassembled := mergeScripts_ok h
    constructor
    · intro hresolves
      refine ⟨fun hlength => ?_, hassembled.traitsKeptOnce hresolves⟩
      simp at hlength
    · intro hkept
      exact hassembled.resolves hkept.2

/-- A script of these functions, each with the trait whose method it keeps, and nothing else. -/
def linkOf (path : String) (functions : List (String × Option String))
    (h : ∀ f ∈ functions, IsIdentifier f.1 ∧ f.1 ≠ "") : ChainLink Unit where
  name := ""
  path := path
  program := { Script.empty with
    functions := functions.map fun f => {
      name := match f.2 with
        | some trait => displacedTraitSymbol trait f.1
        | none => f.1
      line := 1
      column := 1
      isAbstract := false
      traitOrigin := f.2.getD ""
      chainName := if f.2.isSome then f.1 else ""
      body := () } }
  named f hf := by
    obtain ⟨⟨name, kept⟩, hname, rfl⟩ := List.mem_map.mp hf
    obtain ⟨hplain, hne⟩ := h _ hname
    cases kept with
    | none => exact .inl ⟨hplain, hne, rfl⟩
    | some trait => exact .inr ⟨trait, rfl, hplain⟩
  unlinked f hf := by
    obtain ⟨name, -, rfl⟩ := List.mem_map.mp hf
    rfl
  unmerged _ := rfl

-- `f` is overridden twice, `g` by the leaf alone, which also overrides `g` of its trait
def threeScripts : List (ChainLink Unit) :=
  [linkOf "root.gd" [("f", none), ("g", none)] (by decide), linkOf "middle.gd" [("f", none)] (by decide),
    linkOf "leaf.gd" [("g", none), ("f", none), ("g", some "T")] (by decide)]

theorem mergeChain_resolves_three :
    ∃ script, mergeChain threeScripts = .ok script ∧ Resolves threeScripts script := by
  refine ⟨_, rfl, (mergeChain_resolves_iff rfl).mpr ⟨fun hlength => absurd hlength (by decide), ?_⟩⟩
  intro l f hf hmoved l' hl' hlater
  -- only the leaf keeps a trait's method, and nothing is below it
  have hleaf : ∀ d ∈ declarations threeScripts 0, d.1 < 2 → d.2.chainName = "" := by decide
  obtain ⟨link, hlink, -⟩ := hlater
  obtain ⟨hlt, -⟩ := List.getElem?_eq_some_iff.mp hlink
  have hlength : threeScripts.length = 3 := rfl
  exact absurd (hleaf (l, f) hf (by simp only; omega)) hmoved

-- the middle and the leaf use a trait with a method `m`, and both override it
def keptTwice : List (ChainLink Unit) :=
  [linkOf "root.gd" [("m", none)] (by decide),
    linkOf "middle.gd" [("m", none), ("m", some "T")] (by decide),
    linkOf "leaf.gd" [("m", none), ("m", some "T")] (by decide)]

theorem not_traitsKeptOnce_keptTwice : ¬TraitsKeptOnce keptTwice := by
  intro hkept
  -- `@trait.T.m` of the middle is declared again in the leaf, and `m` in the root
  have habove := hkept 1 _ (List.mem_of_getElem? (i := 2) rfl) (by decide) 2 (by decide)
    ⟨_, rfl, by decide⟩
  exact (habove 0 (by decide)).1 ⟨_, rfl, by decide⟩

theorem keptTwice_unresolved {script : Script Unit} (h : mergeChain keptTwice = .ok script) :
    ¬Resolves keptTwice script := by
  intro hresolves
  have hassembled : Assembled keptTwice script := mergeScripts_ok h
  exact not_traitsKeptOnce_keptTwice (hassembled.traitsKeptOnce hresolves)

/-- `super()` in the middle's copy of the trait's method is a call of `m`, which the root declares;
the lookup finds nothing. -/
theorem mergeChain_kept_twice :
    ∃ script f, mergeChain keptTwice = .ok script ∧ script.functions[2]? = some f ∧
      f.name = "@super1.@trait.T.m" ∧ script.chain.superOf "m" f.chainLink = some ⟨0, "@super0.m"⟩ ∧
      script.chain.superOf f.declaredName f.chainLink = none ∧ ¬Resolves keptTwice script :=
  ⟨_, _, rfl, rfl, rfl, rfl, rfl, keptTwice_unresolved rfl⟩

end Program
