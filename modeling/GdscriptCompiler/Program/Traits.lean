import GdscriptCompiler.Program.Declarations
import GdscriptCompiler.Lib.DepthFirst
import Mathlib.Data.List.Pairwise
import Mathlib.Logic.Function.Basic

/-!
# Traits — linearizing `uses` lists and splicing the traits into classes

A method that the class has itself is kept, and the trait's copy moves to a symbol of its own.
-/

namespace Program

open Lib Lexing Parsing

variable {P : Type}

/-! ## 1. The registry -/

/-- A trait as it is parsed: method names are identifiers, and no method is declared twice. -/
structure ParsedTrait (P : Type) extends TraitDecl P where
  identifiers : ∀ m ∈ methods, IsIdentifier m.name
  distinct : (methods.map (·.name)).Nodup

/-- `Registry`: the declared traits by name. -/
structure Registry (P : Type) where
  traits : List (ParsedTrait P)
  distinct : (traits.map (·.name)).Nodup

namespace Registry

variable (R : Registry P)

def find (name : String) : Option (ParsedTrait P) := R.traits.find? (·.name = name)

def usesOf (name : String) : Option (List String) := (R.find name).map (·.uses)

-- `trait_error` at a trait's declaration
def errorAt (name message : String) : SemanticError :=
  match R.find name with
  | some trait => { message, line := trait.line, column := trait.column }
  | none => { message, line := 0, column := 0 }

def describe (line column : Nat) : DepthFirst.Failure String → SemanticError
  | .missing name user =>
    let message := "Trait '" ++ name ++ "' is not declared in this compilation"
    match user with
    | some trait => R.errorAt trait message
    | none => { message, line, column }
  | .cycle path => R.errorAt (path.getLastD "") ("Trait uses cycle: " ++ " -> ".intercalate path)
  | .exhausted => { message := "", line, column }

/-- `linearize`: depth first, a trait behind those it uses. -/
def linearize (names : List String) (line column : Nat) :
    Except SemanticError (List (ParsedTrait P)) :=
  match DepthFirst.order R.usesOf R.traits.length names with
  | .ok order => .ok (order.filterMap R.find)
  | .error failure => .error (R.describe line column failure)

def add (R : Registry P) (trait : ParsedTrait P) : Except SemanticError (Registry P) :=
  if hnew : trait.name ∈ R.traits.map (·.name) then
    .error {
      message := "Trait '" ++ trait.name ++ "' is declared more than once"
      line := trait.line
      column := trait.column }
  else
    .ok {
      traits := trait :: R.traits
      distinct := List.nodup_cons.mpr ⟨hnew, R.distinct⟩ }

def validate (available : List (ParsedTrait P)) : Except SemanticError Unit :=
  available.forM fun trait => discard (R.linearize [trait.name] trait.line trait.column)

def make (available : List (ParsedTrait P)) : Except SemanticError (Registry P) := do
  let R ← available.foldlM add ⟨[], List.nodup_nil⟩
  R.validate available
  return R

end Registry

/-! ## 2. Splicing -/

def sameType (left right : TypeExpr) : Bool := left.toText = right.toText

/-- The methods of a class while traits are spliced in, and which trait gave a concrete method. -/
structure Methods (P : Type) where
  functions : List (FunctionDecl P)
  concrete : String → Option (TraitDecl P)

/-- The copy of a trait's method in a class with these methods of its own. -/
def traitCopy (original : List String) (trait : TraitDecl P) (source : FunctionDecl P) :
    FunctionDecl P :=
  if source.name ∈ original then
    { source with
      traitOrigin := trait.name
      name := displacedTraitSymbol trait.name source.name
      chainName := source.name }
  else { source with traitOrigin := trait.name }

/-- One method of a trait; `owner` is the class as messages call it. -/
def spliceMethod (owner : String) (original : List String) (trait : TraitDecl P) (s : Methods P)
    (source : FunctionDecl P) : Except SemanticError (Methods P) :=
  let spliced : Methods P :=
    { functions := s.functions ++ [traitCopy original trait source]
      concrete := Function.update s.concrete source.name (some trait) }
  if source.isAbstract then .ok s
  else if source.name ∈ original then .ok spliced
  else
    match s.concrete source.name with
    | some prior =>
      .error {
        message := "Traits '" ++ prior.name ++ "' and '" ++ trait.name ++ "' both declare '" ++
          source.name ++
          "'; override it in '" ++ owner ++ "'"
        line := source.line
        column := source.column }
    | none => .ok spliced

/-- The state of `splice_script`: `known` are the variables of the class by name, to which variables
of traits are added, but not constants. -/
structure ScriptSplice (P : Type) where
  globals : List (VarDecl P)
  enums : List (EnumDecl P)
  signals : List (SignalDecl P)
  methods : Methods P
  known : String → Option (VarDecl P)
  traitVars : String → Option (TraitDecl P)
  memberNames : List String

namespace ScriptSplice

variable (owner : String) (trait : TraitDecl P) (s : ScriptSplice P)

def conflict {α : Type} (what name : String) (line column : Nat) : Except SemanticError α :=
  .error {
    message := "Trait '" ++ trait.name ++ "' " ++ what ++ " '" ++ name ++
      "' conflicts with a class member"
    line
    column }

def spliceConstant (source : StructField P) : Except SemanticError (ScriptSplice P) :=
  if source.name ∈ s.memberNames then conflict trait "constant" source.name source.line source.column
  else
    .ok { s with
      globals := s.globals ++ [{
        name := source.name
        typeHint := source.typeHint
        initializer := source.defaultValue
        isConst := true
        isProperty := false
        isOnready := false
        traitOrigin := trait.name
        line := source.line
        column := source.column }]
      memberNames := source.name :: s.memberNames }

def spliceVar (source : VarDecl P) : Except SemanticError (ScriptSplice P) :=
  match s.known source.name, s.traitVars source.name with
  | some existing, _ =>
    if existing.isConst || !sameType existing.typeHint source.typeHint then
      .error {
        message := "Class '" ++ owner ++ "' and trait '" ++ trait.name ++ "' both declare '" ++
          source.name ++ "'"
        line := source.line
        column := source.column
        hint := "A class variable may replace a trait variable only with the identical type" }
    else .ok s
  | none, some prior =>
    if (prior.vars.find? (·.name = source.name)).any fun first => sameType first.typeHint
      source.typeHint then .ok s
    else
      .error {
        message := "Traits '" ++ prior.name ++ "' and '" ++ trait.name ++ "' both declare variable '" ++
          source.name ++ "' with different types"
        line := source.line
        column := source.column }
  | none, none =>
    if source.name ∈ s.memberNames then conflict trait "member" source.name source.line source.column
    else
      .ok { s with
        globals := s.globals ++ [source]
        known := Function.update s.known source.name (some source)
        traitVars := Function.update s.traitVars source.name (some trait)
        memberNames := source.name :: s.memberNames }

def spliceEnum (source : EnumDecl P) : Except SemanticError (ScriptSplice P) :=
  if source.name ≠ "" ∧ source.name ∈ s.memberNames then conflict trait "enum" source.name
    source.line source.column
  else
    .ok { s with
      enums := s.enums ++ [source]
      memberNames := if source.name ≠ "" then source.name :: s.memberNames else s.memberNames }

def spliceSignal (source : SignalDecl P) : Except SemanticError (ScriptSplice P) :=
  if source.name ∈ s.memberNames then conflict trait "signal" source.name source.line source.column
  else .ok { s with signals := s.signals ++ [source], memberNames := source.name :: s.memberNames }

/-- One trait; its constants go first, so that the initial value of a variable may name them. -/
def spliceTrait (owner : String) (original : List String) (s : ScriptSplice P)
    (trait : ParsedTrait P) : Except SemanticError (ScriptSplice P) := do
  let s ← trait.constants.foldlM (spliceConstant trait.toTraitDecl) s
  let s ← trait.vars.foldlM (spliceVar owner trait.toTraitDecl) s
  let s ← trait.enums.foldlM (spliceEnum trait.toTraitDecl) s
  let s ← trait.signals.foldlM (spliceSignal trait.toTraitDecl) s
  let methods ← trait.methods.foldlM (spliceMethod owner original trait.toTraitDecl) s.methods
  return { s with methods }

end ScriptSplice

structure ParsedScript (P : Type) extends Script P where
  identifiers : ∀ f ∈ functions, IsIdentifier f.name

def Script.owner (script : Script P) : String :=
  if script.className = "" then "this script" else script.className

-- a symbol of the compiler's own is not a method that can be overridden
def Script.originalMethods (script : Script P) : List String :=
  (script.functions.map (·.name)).filter fun name => name.toList.head? ≠ some '@'

def ScriptSplice.start (program : Script P) : ScriptSplice P where
  globals := program.globals
  enums := program.enums
  signals := program.signals
  methods := ⟨program.functions, fun _ => none⟩
  known name := program.globals.reverse.find? (·.name = name)
  traitVars _ := none
  memberNames := program.globals.map (·.name) ++ program.signals.map (·.name)

def spliceScript (R : Registry P) (program : ParsedScript P) : Except SemanticError (Script P) := do
  let traits ← R.linearize program.uses program.classNameLine program.classNameColumn
  let s ← traits.foldlM (ScriptSplice.spliceTrait program.owner program.originalMethods)
    (.start program.toScript)
  return { program.toScript with
    uses := traits.map (·.name)
    globals := s.globals
    enums := s.enums
    signals := s.signals
    functions := s.methods.functions }

/-- The state of `splice_nested`. -/
structure NestedSplice (P : Type) where
  fields : List (StructField P)
  constants : List (StructField P)
  methods : Methods P
  traitFields : String → Option (TraitDecl P)

namespace NestedSplice

variable (user : StructDecl P) (trait : TraitDecl P) (s : NestedSplice P)

/-- What a trait may not have that is used below the script's own class. -/
def admits : Except SemanticError Unit :=
  if trait.baseName ≠ "" ∧ !user.isClass then
    .error {
      message := "Struct '" ++ user.name ++ "' cannot use '" ++ trait.name ++
        "': the trait requires base '" ++
        trait.baseName ++ "'"
      line := user.line
      column := user.column }
  else if trait.signals.isEmpty then .ok ()
  else
    .error {
      message := "Class '" ++ user.name ++ "' cannot use '" ++ trait.name ++
        "': nested classes do not support signals"
      line := user.line
      column := user.column }

def typeConflict (owners : String) (source : VarDecl P) : Except SemanticError (NestedSplice P) :=
  .error {
    message := owners ++ " declare '" ++ source.name ++ "' with different types"
    line := source.line
    column := source.column }

def spliceField (source : VarDecl P) : Except SemanticError (NestedSplice P) :=
  if source.isProperty || source.isOnready then
    .error {
      message := "Trait '" ++ trait.name ++ "' variable '" ++ source.name ++
        "' uses a script-class-only annotation"
      line := source.line
      column := source.column }
  else
    match s.fields.find? (·.name = source.name), s.traitFields source.name with
    | some own, _ =>
      if sameType own.typeHint source.typeHint then .ok s
      else typeConflict ("Class '" ++ user.name ++ "' and trait '" ++ trait.name ++ "'") source
    | none, some prior =>
      if (prior.vars.find? (·.name = source.name)).any fun first => sameType first.typeHint
        source.typeHint then .ok s
      else typeConflict ("Traits '" ++ prior.name ++ "' and '" ++ trait.name ++ "'") source
    | none, none =>
      .ok { s with
        fields := s.fields ++ [{
          name := source.name
          typeHint := source.typeHint
          defaultValue := source.initializer
          traitOrigin := trait.name
          line := source.line
          column := source.column }]
        traitFields := Function.update s.traitFields source.name (some trait) }

def spliceConstant (source : StructField P) : Except SemanticError (NestedSplice P) :=
  if (s.constants.find? (·.name = source.name)).isSome ||
    (s.fields.find? (·.name = source.name)).isSome then .error {
      message := "Trait '" ++ trait.name ++ "' constant '" ++ source.name ++ "' conflicts in '" ++
        user.name ++ "'"
      line := source.line
      column := source.column }
  else .ok { s with constants := s.constants ++ [source] }

def spliceTrait (user : StructDecl P) (original : List String) (s : NestedSplice P)
    (trait : ParsedTrait P) : Except SemanticError (NestedSplice P) := do
  admits user trait.toTraitDecl
  let s ← trait.vars.foldlM (spliceField user trait.toTraitDecl) s
  let s ← trait.constants.foldlM (spliceConstant user trait.toTraitDecl) s
  let methods ← trait.methods.foldlM (spliceMethod user.name original trait.toTraitDecl) s.methods
  return { s with methods }

end NestedSplice

/-- The method the parser makes of the getter of a field. -/
def getterName (field : String) : String := "@" ++ field ++ "_getter"

/-- A class as it is parsed: its methods are declared ones, and the getters of its fields. -/
structure ParsedClass (P : Type) extends StructDecl P where
  named : ∀ m ∈ methods, IsIdentifier m.name ∨ ∃ field, IsIdentifier field ∧ m.name = getterName field

def NestedSplice.start (user : StructDecl P) : NestedSplice P where
  fields := user.fields
  constants := user.constants
  methods := ⟨user.methods, fun _ => none⟩
  traitFields _ := none

def spliceNested (R : Registry P) (user : ParsedClass P) : Except SemanticError (StructDecl P) := do
  let traits ← R.linearize user.uses user.line user.column
  let s ← traits.foldlM (NestedSplice.spliceTrait user.toStructDecl (user.methods.map (·.name)))
    (.start user.toStructDecl)
  return { user.toStructDecl with
    uses := traits.map (·.name)
    fields := s.fields
    methods := s.methods.functions
    constants := s.constants }

/-! ## 3. The order of the traits -/

variable {name : String} {names : List String} {line column : Nat}

namespace Registry

variable (R : Registry P)

/-- The trait of that name is used by one of these, directly or through others. -/
def Reachable (names : List String) (name : String) : Prop :=
  ∃ a ∈ names, DepthFirst.Reaches R.usesOf a name

def InCycle (name : String) : Prop := Relation.TransGen (DepthFirst.Edge R.usesOf) name name

/-- Each trait that is reached, once and behind those it uses. -/
structure Linearizes (names : List String) (traits : List (ParsedTrait P)) : Prop where
  once : (traits.map (·.name)).Nodup
  reached : ∀ name, name ∈ traits.map (·.name) ↔ R.Reachable names name
  declared : ∀ trait ∈ traits, R.find trait.name = some trait
  behind : ∀ earlier trait later, traits = earlier ++ trait :: later → ∀ used ∈ trait.uses,
    used ∈ earlier.map (·.name)

variable {R}

theorem find_name {trait : ParsedTrait P} (h : R.find name = some trait) : trait.name = name := by
  simpa using List.find?_some h

theorem usesOf_isSome : (R.usesOf name).isSome = (R.find name).isSome := Option.isSome_map

theorem mem_names (h : (R.usesOf name).isSome = true) : name ∈ R.traits.map (·.name) := by
  rw [usesOf_isSome] at h
  obtain ⟨trait, htrait⟩ := Option.isSome_iff_exists.mp h
  rw [← find_name htrait]
  exact List.mem_map_of_mem (List.mem_of_find?_eq_some htrait)

theorem filterMap_find {order : List String} (h : ∀ name ∈ order, (R.find name).isSome = true) :
    (order.filterMap R.find).map (·.name) = order := by
  induction order with
  | nil => rfl
  | cons name order ih =>
    obtain ⟨hname, hrest⟩ := List.forall_mem_cons.mp h
    obtain ⟨trait, htrait⟩ := Option.isSome_iff_exists.mp hname
    rw [List.filterMap_cons_some htrait, List.map_cons, ih hrest, find_name htrait]

theorem linearize_linearizes {traits : List (ParsedTrait P)}
    (h : R.linearize names line column = .ok traits) :
    R.Linearizes names traits := by
  unfold linearize at h
  cases horder : DepthFirst.order R.usesOf R.traits.length names with
  | error failure =>
    rw [horder] at h
    cases h
  | ok order =>
    rw [horder] at h
    cases h
    obtain ⟨hsorted, hreached⟩ := DepthFirst.order_ok horder
    have hnames : (order.filterMap R.find).map (·.name) = order :=
      filterMap_find fun name hname => usesOf_isSome ▸ hsorted.declared hname
    have hfound : ∀ trait ∈ order.filterMap R.find, R.find trait.name = some trait := by
      intro trait htrait
      obtain ⟨name, -, hname⟩ := List.mem_filterMap.mp htrait
      rw [find_name hname]
      exact hname
    refine ⟨?_, ?_, hfound, ?_⟩
    · rw [hnames]
      exact hsorted.nodup
    · intro name
      rw [hnames]
      exact hreached name
    · intro earlier trait later hsplit used hused
      have horder : order = earlier.map (·.name) ++ trait.name :: later.map (·.name) := by
        rw [← hnames, hsplit, List.map_append, List.map_cons]
      refine hsorted.behind horder ⟨trait.uses, ?_, hused⟩
      have hmem : trait ∈ order.filterMap R.find := by
        rw [hsplit]
        simp
      unfold usesOf
      rw [hfound trait hmem]
      rfl

/-- `linearize` throws exactly when a trait that is not declared, or one that uses itself, can be
reached. -/
theorem linearize_error_iff :
    (∃ e, R.linearize names line column = .error e) ↔
      (∃ name, R.Reachable names name ∧ R.find name = none) ∨
        ∃ name, R.Reachable names name ∧ R.InCycle name := by
  have hiff : (∃ order, DepthFirst.order R.usesOf (R.traits.map (·.name)).length names = .ok order) ↔
      ∀ a ∈ names, DepthFirst.Sound R.usesOf a := DepthFirst.order_eq_ok_iff fun _ => mem_names
  rw [List.length_map] at hiff
  have herror : (∃ e, R.linearize names line column = .error e) ↔
      ¬∃ order, DepthFirst.order R.usesOf R.traits.length names = .ok order := by
    unfold linearize
    cases DepthFirst.order R.usesOf R.traits.length names <;> simp
  rw [herror, hiff]
  constructor
  · intro hunsound
    push Not at hunsound
    obtain ⟨a, ha, hunsound⟩ := hunsound
    unfold DepthFirst.Sound at hunsound
    push Not at hunsound
    obtain ⟨name, hreach, hbad⟩ := hunsound
    cases hfind : R.find name with
    | none => exact .inl ⟨name, ⟨a, ha, hreach⟩, hfind⟩
    | some trait =>
      refine .inr ⟨name, ⟨a, ha, hreach⟩, hbad ?_⟩
      rw [usesOf_isSome, hfind]
      rfl
  · rintro (⟨name, ⟨a, ha, hreach⟩, hnone⟩ | ⟨name, ⟨a, ha, hreach⟩, hcycle⟩) hsound
    · have hdeclared := (hsound a ha name hreach).1
      rw [usesOf_isSome, hnone] at hdeclared
      cases hdeclared
    · exact (hsound a ha name hreach).2 hcycle

end Registry

theorem Registry.linearize_error {R : Registry P} {e : SemanticError}
    (h : R.linearize names line column = .error e) :
    ∃ failure, failure ≠ DepthFirst.Failure.exhausted ∧ e = R.describe line column failure := by
  have hfuel : DepthFirst.order R.usesOf (R.traits.map (·.name)).length names ≠ .error .exhausted :=
    DepthFirst.order_ne_exhausted fun _ => mem_names
  rw [List.length_map] at hfuel
  unfold linearize at h
  cases horder : DepthFirst.order R.usesOf R.traits.length names with
  | ok order =>
    rw [horder] at h
    cases h
  | error failure =>
    rw [horder] at h hfuel
    cases h
    exact ⟨failure, fun hexhausted => hfuel (hexhausted ▸ rfl), rfl⟩

def bareTrait (name : String) (uses : List String) : ParsedTrait Unit where
  name := name
  baseName := ""
  uses := uses
  vars := []
  constants := []
  enums := []
  signals := []
  methods := []
  line := 1
  column := 1
  identifiers _ hm := (List.not_mem_nil hm).elim
  distinct := List.nodup_nil

-- a diamond, and the same with the bottom used at the top
example :
    (Registry.linearize ⟨[bareTrait "A" ["B", "C"], bareTrait "B" ["D"], bareTrait "C" ["D"],
      bareTrait "D" []], by decide⟩ ["A"] 0 0).map (·.map (·.name)) =
      .ok ["D", "B", "C", "A"] := rfl

example :
    (Registry.linearize ⟨[bareTrait "A" ["B", "C"], bareTrait "B" ["D"], bareTrait "C" ["D"],
      bareTrait "D" ["B"]], by decide⟩ ["A"] 0 0).map (·.map (·.name)) =
      .error { message := "Trait uses cycle: B -> D -> B", line := 1, column := 1 } := rfl

/-! ## 4. Methods -/

/-- A concrete method and the trait that gives it. -/
abbrev Given (P : Type) := ParsedTrait P × FunctionDecl P

def provided (trait : ParsedTrait P) : List (Given P) :=
  (trait.methods.filter (!·.isAbstract)).map (trait, ·)

def givenCopy (original : List String) (g : Given P) : FunctionDecl P :=
  traitCopy original g.1.toTraitDecl g.2

/-- These methods were spliced in, and only ones that the class overrides share a name. -/
structure Spliced (original : List String) (s s' : Methods P) (given : List (Given P)) : Prop where
  functions : s'.functions = s.functions ++ given.map (givenCopy original)
  free : ∀ g ∈ given, g.2.name ∉ original → s.concrete g.2.name = none
  known : ∀ name, s'.concrete name = none → s.concrete name = none ∧ ∀ g ∈ given, g.2.name ≠ name
  apart : given.Pairwise fun g g' => g.2.name = g'.2.name → g.2.name ∈ original

theorem Spliced.nil (original : List String) (s : Methods P) : Spliced original s s [] where
  functions := by simp
  free g hg := (List.not_mem_nil hg).elim
  known name h := ⟨h, fun _ hg => (List.not_mem_nil hg).elim⟩
  apart := .nil

variable {original : List String}

theorem Spliced.trans {s mid s' : Methods P} {given more : List (Given P)}
    (h : Spliced original s mid given) (h' : Spliced original mid s' more) :
    Spliced original s s' (given ++ more) where
  functions := by rw [h'.functions, h.functions, List.map_append, List.append_assoc]
  free g hg hown := by
    rcases List.mem_append.mp hg with hg | hg
    · exact h.free g hg hown
    · exact (h.known _ (h'.free g hg hown)).1
  known name hnone := by
    obtain ⟨hmid, hmore⟩ := h'.known name hnone
    obtain ⟨hs, hgiven⟩ := h.known name hmid
    refine ⟨hs, fun g hg => ?_⟩
    rcases List.mem_append.mp hg with hg | hg
    · exact hgiven g hg
    · exact hmore g hg
  apart := by
    refine List.pairwise_append.mpr ⟨h.apart, h'.apart, ?_⟩
    intro g hg g' hg' hname
    by_contra hown
    have hnone := h'.free g' hg' (hname ▸ hown)
    exact (h.known _ hnone).2 g hg hname

theorem spliced_foldlM {σ β : Type} (methods : σ → Methods P)
    {step : σ → β → Except SemanticError σ} {given : β → List (Given P)}
    (hstep : ∀ s s' x, step s x = .ok s' → Spliced original (methods s) (methods s') (given x))
    {xs : List β} {s s' : σ} (h : xs.foldlM step s = .ok s') :
    Spliced original (methods s) (methods s') (xs.flatMap given) := by
  induction xs generalizing s with
  | nil =>
    cases h
    exact .nil original _
  | cons x xs ih =>
    rw [List.foldlM_cons] at h
    obtain ⟨mid, hmid, h⟩ := bind_eq_ok.mp h
    rw [List.flatMap_cons]
    exact (hstep s mid x hmid).trans (ih h)

variable {owner : String}

theorem spliceMethod_spliced {trait : ParsedTrait P} {s s' : Methods P} {source : FunctionDecl P}
    (h : spliceMethod owner original trait.toTraitDecl s source = .ok s') :
    Spliced original s s' (if source.isAbstract then [] else [(trait, source)]) := by
  have hsplice : (source.name ∉ original → s.concrete source.name = none) → Spliced original s
        { functions := s.functions ++ [traitCopy original trait.toTraitDecl source]
          concrete := Function.update s.concrete source.name (some trait.toTraitDecl) }
            [(trait, source)] := by
    intro hfree
    refine ⟨rfl, by simpa using hfree, ?_, List.pairwise_singleton _ _⟩
    intro name hnone
    replace hnone : Function.update s.concrete source.name (some trait.toTraitDecl) name = none := hnone
    by_cases hname : name = source.name
    · rw [hname, Function.update_self] at hnone
      cases hnone
    · rw [Function.update_of_ne hname] at hnone
      exact ⟨hnone, by simpa using fun heq => hname heq.symm⟩
  unfold spliceMethod at h
  by_cases habstract : source.isAbstract = true
  · rw [if_pos habstract] at h ⊢
    cases h
    exact .nil original s
  · rw [if_neg habstract] at h ⊢
    split at h
    · rename_i hown
      cases h
      exact hsplice fun hnot => absurd hown hnot
    · cases hconcrete : s.concrete source.name with
      | some prior =>
        rw [hconcrete] at h
        cases h
      | none =>
        rw [hconcrete] at h
        cases h
        exact hsplice fun _ => hconcrete

theorem flatMap_provided (trait : ParsedTrait P) (methods : List (FunctionDecl P)) :
    (methods.flatMap fun m => if m.isAbstract then [] else [(trait, m)]) =
      (methods.filter (!·.isAbstract)).map (trait, ·) := by
  induction methods with
  | nil => rfl
  | cons m methods ih =>
    rw [List.flatMap_cons, ih, List.filter_cons]
    cases m.isAbstract <;> rfl

theorem spliceMethods_spliced {trait : ParsedTrait P} {s s' : Methods P}
    (h : trait.methods.foldlM (spliceMethod owner original trait.toTraitDecl) s = .ok s') :
    Spliced original s s' (provided trait) := by
  have hspliced := spliced_foldlM id (fun _ _ _ => spliceMethod_spliced) h
  rw [flatMap_provided] at hspliced
  exact hspliced

namespace ScriptSplice

variable {s s' : ScriptSplice P} {trait : TraitDecl P}

theorem spliceConstant_methods {source : StructField P}
    (h : spliceConstant trait s source = .ok s') :
    s'.methods = s.methods := by
  unfold spliceConstant at h
  split at h
  · cases h
  · cases h
    rfl

theorem spliceVar_methods {source : VarDecl P} (h : spliceVar owner trait s source = .ok s') :
    s'.methods = s.methods := by
  unfold spliceVar at h
  split at h
  · split at h
    · cases h
    · cases h
      rfl
  · split at h
    · cases h
      rfl
    · cases h
  · split at h
    · cases h
    · cases h
      rfl

theorem spliceEnum_methods {source : EnumDecl P} (h : spliceEnum trait s source = .ok s') :
    s'.methods = s.methods := by
  unfold spliceEnum at h
  split at h
  · cases h
  · cases h
    rfl

theorem spliceSignal_methods {source : SignalDecl P} (h : spliceSignal trait s source = .ok s') :
    s'.methods = s.methods := by
  unfold spliceSignal at h
  split at h
  · cases h
  · cases h
    rfl

theorem spliceTrait_spliced {trait : ParsedTrait P}
    (h : spliceTrait owner original s trait = .ok s') :
    Spliced original s.methods s'.methods (provided trait) := by
  obtain ⟨s₁, h₁, h⟩ := bind_eq_ok.mp h
  obtain ⟨s₂, h₂, h⟩ := bind_eq_ok.mp h
  obtain ⟨s₃, h₃, h⟩ := bind_eq_ok.mp h
  obtain ⟨s₄, h₄, h⟩ := bind_eq_ok.mp h
  obtain ⟨result, hresult, hpure⟩ := bind_eq_ok.mp h
  cases hpure
  have hkept : s₄.methods = s.methods := by
    rw [foldlM_keeps ScriptSplice.methods (fun _ _ _ => spliceSignal_methods) h₄,
      foldlM_keeps ScriptSplice.methods (fun _ _ _ => spliceEnum_methods) h₃,
      foldlM_keeps ScriptSplice.methods (fun _ _ _ => spliceVar_methods) h₂,
      foldlM_keeps ScriptSplice.methods (fun _ _ _ => spliceConstant_methods) h₁]
  rw [← hkept]
  exact spliceMethods_spliced hresult

end ScriptSplice

namespace NestedSplice

variable {s s' : NestedSplice P} {user : StructDecl P} {trait : TraitDecl P}

theorem spliceField_methods {source : VarDecl P} (h : spliceField user trait s source = .ok s') :
    s'.methods = s.methods := by
  unfold spliceField at h
  split at h
  · cases h
  · split at h
    · split at h
      · cases h
        rfl
      · cases h
    · split at h
      · cases h
        rfl
      · cases h
    · cases h
      rfl

theorem spliceConstant_methods {source : StructField P}
    (h : spliceConstant user trait s source = .ok s') :
    s'.methods = s.methods := by
  unfold spliceConstant at h
  split at h
  · cases h
  · cases h
    rfl

theorem spliceTrait_spliced {trait : ParsedTrait P}
    (h : spliceTrait user original s trait = .ok s') :
    Spliced original s.methods s'.methods (provided trait) := by
  obtain ⟨_, -, h⟩ := bind_eq_ok.mp h
  obtain ⟨s₁, h₁, h⟩ := bind_eq_ok.mp h
  obtain ⟨s₂, h₂, h⟩ := bind_eq_ok.mp h
  obtain ⟨result, hresult, hpure⟩ := bind_eq_ok.mp h
  cases hpure
  have hkept : s₂.methods = s.methods := by
    rw [foldlM_keeps NestedSplice.methods (fun _ _ _ => spliceConstant_methods) h₂,
      foldlM_keeps NestedSplice.methods (fun _ _ _ => spliceField_methods) h₁]
  rw [← hkept]
  exact spliceMethods_spliced hresult

end NestedSplice

/-! ## 5. Symbols -/

theorem displacedTraitSymbol_toList (trait method : String) :
    (displacedTraitSymbol trait method).toList = "@trait.".toList ++
      (trait.toList ++ '.' :: method.toList) := by
  unfold displacedTraitSymbol
  rw [String.toList_append, String.toList_append, String.toList_append, List.append_assoc,
    List.append_assoc]
  rfl

theorem ne_displaced (h : '.' ∉ name.toList) (trait method : String) :
    name ≠ displacedTraitSymbol trait method := by
  rintro rfl
  rw [displacedTraitSymbol_toList] at h
  exact h (List.mem_append_left _ (by decide))

theorem IsIdentifier.dotless (h : IsIdentifier name) : '.' ∉ name.toList :=
  fun hdot => (h '.' hdot).2 rfl

theorem ParsedClass.dotless (user : ParsedClass P) : ∀ m ∈ user.methods, '.' ∉ m.name.toList := by
  intro m hm
  rcases user.named m hm with h | ⟨field, h, hname⟩
  · exact h.dotless
  · rw [hname, getterName, String.toList_append, String.toList_append]
    have hfield := h.dotless
    have hends : '.' ∉ "@".toList ∧ '.' ∉ "_getter".toList := by decide
    simp only [List.mem_append, hends, hfield, or_self, not_false_eq_true]

-- behind the last dot stands the method
theorem displacedTraitSymbol_inj {trait trait' method method' : String}
    (hmethod : IsIdentifier method) (hmethod' : IsIdentifier method')
    (h : displacedTraitSymbol trait method = displacedTraitSymbol trait' method') :
    trait = trait' ∧ method = method' := by
  have hlist := congrArg String.toList h
  rw [displacedTraitSymbol_toList, displacedTraitSymbol_toList] at hlist
  have hrest := List.append_cancel_left hlist
  have hdotless : ∀ {name : String}, IsIdentifier name → ∀ c ∈ name.toList.reverse,
    decide (c ≠ '.') = true := by
    intro name hname c hc
    exact decide_eq_true (hname c (List.mem_reverse.mp hc)).2
  have hname : method.toList = method'.toList := by
    have hrun := congrArg (fun l => l.reverse.takeWhile fun c => decide (c ≠ '.')) hrest
    simp only [List.reverse_append, List.reverse_cons, List.append_assoc] at hrun
    rw [List.takeWhile_append_of_pos (hdotless hmethod),
      List.takeWhile_append_of_pos (hdotless hmethod')] at hrun
    simpa using hrun
  rw [hname] at hrest
  exact ⟨String.toList_inj.mp (List.append_cancel_right hrest), String.toList_inj.mp hname⟩

theorem mem_provided {trait : ParsedTrait P} {g : Given P} :
    g ∈ provided trait ↔ g.1 = trait ∧ g.2 ∈ trait.methods ∧ g.2.isAbstract = false := by
  unfold provided
  rw [List.mem_map]
  constructor
  · rintro ⟨m, hm, rfl⟩
    obtain ⟨hmem, hconcrete⟩ := List.mem_filter.mp hm
    exact ⟨rfl, hmem, by simpa using hconcrete⟩
  · rintro ⟨rfl, hmem, hconcrete⟩
    exact ⟨g.2, List.mem_filter.mpr ⟨hmem, by simp [hconcrete]⟩, rfl⟩

theorem given_distinct {traits : List (ParsedTrait P)} (honce : (traits.map (·.name)).Nodup) :
    (traits.flatMap provided).Pairwise fun g g' => g.1.name ≠ g'.1.name ∨ g.2.name ≠ g'.2.name := by
  rw [List.pairwise_flatMap]
  constructor
  · intro trait _
    unfold provided
    rw [List.pairwise_map]
    exact ((List.pairwise_map.mp trait.distinct).filter _).imp .inr
  · refine (List.pairwise_map.mp honce).imp ?_
    intro trait trait' hne g hg g' hg'
    rw [(mem_provided.mp hg).1, (mem_provided.mp hg').1]
    exact .inl hne

section Present

variable {own : List (FunctionDecl P)} {traits : List (ParsedTrait P)}

/-- The name of a trait's method in a class: its own, or the displaced symbol where the class has
the method. -/
def splicedName (own : List (FunctionDecl P)) (trait : ParsedTrait P) (method : FunctionDecl P) :
    String :=
  if method.name ∈ own.map (·.name) then displacedTraitSymbol trait.name method.name else method.name

theorem givenCopy_name (g : Given P) :
    (givenCopy (own.map (·.name)) g).name = splicedName own g.1 g.2 := by
  unfold givenCopy traitCopy splicedName
  split <;> rfl

theorem splicedNames_distinct (honce : (traits.map (·.name)).Nodup)
    (hapart : (traits.flatMap provided).Pairwise fun g g' => g.2.name = g'.2.name →
        g.2.name ∈ own.map (·.name)) :
    (((traits.flatMap provided).map (givenCopy (own.map (·.name)))).map (·.name)).Nodup := by
  have hidentifier : ∀ g ∈ traits.flatMap provided, IsIdentifier g.2.name := by
    intro g hg
    obtain ⟨trait, -, hg⟩ := List.mem_flatMap.mp hg
    exact trait.identifiers g.2 (mem_provided.mp hg).2.1
  rw [List.Nodup, List.pairwise_map, List.pairwise_map]
  refine (hapart.and (given_distinct honce)).imp_of_mem ?_
  rintro g g' hg hg' ⟨happart, hdistinct⟩ hname
  rw [givenCopy_name, givenCopy_name] at hname
  unfold splicedName at hname
  split at hname
  · split at hname
    · obtain ⟨htrait, hmethod⟩ := displacedTraitSymbol_inj (hidentifier g hg) (hidentifier g' hg') hname
      rcases hdistinct with hne | hne
      · exact hne htrait
      · exact hne hmethod
    · exact ne_displaced (hidentifier g' hg').dotless _ _ hname.symm
  · rename_i hnew
    split at hname
    · exact ne_displaced (hidentifier g hg).dotless _ _ hname
    · exact hnew (happart hname)

structure SplicesMethods (own : List (FunctionDecl P)) (traits : List (ParsedTrait P))
    (result : List (FunctionDecl P)) : Prop where
  unchanged : ∃ added, result = own ++ added
  present : ∀ trait ∈ traits, ∀ m ∈ trait.methods, m.isAbstract = false →
    (result.map (·.name)).count (splicedName own trait m) = 1 ∧
      ∃ f ∈ result, f.name = splicedName own trait m ∧ f.traitOrigin = trait.name ∧ f.body = m.body

theorem Spliced.splices {concrete : String → Option (TraitDecl P)} {s : Methods P}
    (h : Spliced (own.map (·.name)) ⟨own, concrete⟩ s (traits.flatMap provided))
    (hown : ∀ f ∈ own, '.' ∉ f.name.toList) (honce : (traits.map (·.name)).Nodup) :
    SplicesMethods own traits s.functions where
  unchanged := ⟨_, h.functions⟩
  present trait htrait m hm hconcrete := by
    have hg : (trait, m) ∈ traits.flatMap provided :=
      List.mem_flatMap.mpr ⟨trait, htrait, mem_provided.mpr ⟨rfl, hm, hconcrete⟩⟩
    have hcopy := List.mem_map_of_mem (f := givenCopy (own.map (·.name))) hg
    have hname : (givenCopy (own.map (·.name)) (trait, m)).name = splicedName own trait m :=
      givenCopy_name (trait, m)
    constructor
    · have hnot : splicedName own trait m ∉ own.map (·.name) := by
        unfold splicedName
        split
        · intro hmem
          obtain ⟨f, hf, heq⟩ := List.mem_map.mp hmem
          exact ne_displaced (hown f hf) _ _ heq
        · assumption
      rw [h.functions, List.map_append, List.count_append, List.count_eq_zero_of_not_mem hnot,
        Nat.zero_add]
      exact List.count_eq_one_of_mem (splicedNames_distinct honce h.apart)
        (hname ▸ List.mem_map_of_mem hcopy)
    · refine ⟨_, h.functions ▸ List.mem_append_right _ hcopy, hname, ?_, ?_⟩
      · unfold givenCopy traitCopy
        split <;> rfl
      · unfold givenCopy traitCopy
        split <;> rfl

theorem Spliced.no_conflict {concrete : String → Option (TraitDecl P)} {s : Methods P}
    (h : Spliced (own.map (·.name)) ⟨own, concrete⟩ s (traits.flatMap provided)) {g g' : Given P}
    (hg : g ∈ traits.flatMap provided) (hg' : g' ∈ traits.flatMap provided)
    (htrait : g.1.name ≠ g'.1.name) (hname : g.2.name = g'.2.name) :
    g.2.name ∈ own.map (·.name) := by
  have hsymm : Std.Symm fun g g' : Given P => g.2.name = g'.2.name → g.2.name ∈ own.map (·.name) :=
    ⟨fun _ _ hab heq => heq ▸ hab heq.symm⟩
  refine h.apart.forall hg hg' ?_ hname
  rintro rfl
  exact htrait rfl

end Present

/-- What splicing does to a class, `splice` being the outcome for a class with these methods and
this list. -/
structure Splices (R : Registry P) (uses : List String) (line column : Nat)
    (own : List (FunctionDecl P)) (splice : Except SemanticError (List (FunctionDecl P))) :
    Prop where
  ok : ∀ result, splice = .ok result →
    ∃ traits, R.linearize uses line column = .ok traits ∧ SplicesMethods own traits result
  conflict : ∀ traits, R.linearize uses line column = .ok traits → ∀ trait ∈ traits, ∀ trait' ∈ traits,
    trait.name ≠ trait'.name → ∀ m ∈ trait.methods, ∀ m' ∈ trait'.methods, m.isAbstract = false →
    m'.isAbstract = false → m.name = m'.name → m.name ∉ own.map (·.name) → ∃ e, splice = .error e

theorem splices_of_spliced {R : Registry P} {uses : List String} {own : List (FunctionDecl P)}
    {splice : Except SemanticError (List (FunctionDecl P))} (hown : ∀ f ∈ own, '.' ∉ f.name.toList)
    (h : ∀ result, splice = .ok result → ∃ traits s, R.linearize uses line column = .ok traits ∧
        Spliced (own.map (·.name)) ⟨own, fun _ => none⟩ s (traits.flatMap provided) ∧
      result = s.functions) :
    Splices R uses line column own splice where
  ok result hresult := by
    obtain ⟨traits, s, hlinear, hspliced, rfl⟩ := h result hresult
    exact ⟨traits, hlinear, hspliced.splices hown (Registry.linearize_linearizes hlinear).once⟩
  conflict traits hlinear trait htrait trait' htrait' hne m hm m' hm' hconcrete hconcrete' hname
    hnew := by
    cases hsplice : splice with
    | error e => exact ⟨e, rfl⟩
    | ok result =>
      obtain ⟨traits', s, hlinear', hspliced, -⟩ := h result hsplice
      rw [hlinear] at hlinear'
      cases hlinear'
      refine absurd ?_ hnew
      have hgiven : ((trait, m) : Given P) ∈ traits.flatMap provided :=
        List.mem_flatMap.mpr ⟨trait, htrait, mem_provided.mpr ⟨rfl, hm, hconcrete⟩⟩
      have hgiven' : ((trait', m') : Given P) ∈ traits.flatMap provided :=
        List.mem_flatMap.mpr ⟨trait', htrait', mem_provided.mpr ⟨rfl, hm', hconcrete'⟩⟩
      exact hspliced.no_conflict hgiven hgiven' hne hname

theorem originalMethods_eq (program : ParsedScript P) :
    program.originalMethods = program.functions.map (·.name) := by
  unfold Script.originalMethods
  rw [List.filter_eq_self]
  intro name hname
  obtain ⟨f, hf, rfl⟩ := List.mem_map.mp hname
  refine decide_eq_true fun hhead => ?_
  exact (program.identifiers f hf '@' (List.mem_of_head? hhead)).1 rfl

theorem spliceScript_splices (R : Registry P) (program : ParsedScript P) :
    Splices R program.uses program.classNameLine program.classNameColumn program.functions
      ((spliceScript R program).map (·.functions)) := by
  apply splices_of_spliced fun f hf => (program.identifiers f hf).dotless
  intro result hresult
  obtain ⟨script, hscript, rfl⟩ := map_eq_ok.mp hresult
  obtain ⟨traits, hlinear, hscript⟩ := bind_eq_ok.mp hscript
  obtain ⟨s, hs, hpure⟩ := bind_eq_ok.mp hscript
  cases hpure
  have hspliced := spliced_foldlM ScriptSplice.methods (fun _ _ _ => ScriptSplice.spliceTrait_spliced) hs
  rw [originalMethods_eq] at hspliced
  exact ⟨traits, s.methods, hlinear, hspliced, rfl⟩

theorem spliceNested_splices (R : Registry P) (user : ParsedClass P) :
    Splices R user.uses user.line user.column user.methods
      ((spliceNested R user).map (·.methods)) := by
  apply splices_of_spliced user.dotless
  intro result hresult
  obtain ⟨decl, hdecl, rfl⟩ := map_eq_ok.mp hresult
  obtain ⟨traits, hlinear, hdecl⟩ := bind_eq_ok.mp hdecl
  obtain ⟨s, hs, hpure⟩ := bind_eq_ok.mp hdecl
  cases hpure
  exact ⟨traits, s.methods, hlinear,
    spliced_foldlM NestedSplice.methods (fun _ _ _ => NestedSplice.spliceTrait_spliced) hs, rfl⟩

/-- Linearization gives each reachable trait once, behind those it uses, and throws exactly when it
cannot; splicing keeps the methods of a class, adds each concrete method of its traits once, and
throws on a method that two of them give and the class does not have. -/
theorem traits_spliced (R : Registry P) :
    (∀ names line column,
      (∀ traits, R.linearize names line column = .ok traits → R.Linearizes names traits) ∧
      ((∃ e, R.linearize names line column = .error e) ↔
        (∃ name, R.Reachable names name ∧ R.find name = none) ∨
          ∃ name, R.Reachable names name ∧ R.InCycle name) ∧
      ∀ e, R.linearize names line column = .error e →
        ∃ failure, failure ≠ DepthFirst.Failure.exhausted ∧ e = R.describe line column failure) ∧
    (∀ program : ParsedScript P,
      Splices R program.uses program.classNameLine program.classNameColumn program.functions
        ((spliceScript R program).map (·.functions))) ∧
    ∀ user : ParsedClass P,
      Splices R user.uses user.line user.column user.methods
        ((spliceNested R user).map (·.methods)) := by
  refine ⟨fun names line column => ⟨fun traits h => ?_, ?_, fun e h => ?_⟩, spliceScript_splices R,
    spliceNested_splices R⟩
  · exact Registry.linearize_linearizes h
  · exact Registry.linearize_error_iff
  · exact Registry.linearize_error h

def namedMethod (name : String) (body : Nat) : FunctionDecl Nat where
  name := name
  line := 1
  column := 1
  isAbstract := false
  body := body

def describing : ParsedTrait Nat where
  name := "Describing"
  baseName := ""
  uses := []
  vars := []
  constants := []
  enums := []
  signals := []
  methods := [namedMethod "describe" 1, namedMethod "label" 2]
  line := 1
  column := 1
  identifiers := by decide
  distinct := by decide

-- overrides `describe` of its trait and has a field with a getter
def assetClass : ParsedClass Nat where
  name := "Asset"
  isClass := true
  uses := ["Describing"]
  fields := []
  methods := [namedMethod "describe" 3, namedMethod (getterName "key") 4]
  constants := []
  line := 1
  column := 1
  named := by
    intro m hm
    simp only [List.mem_cons, List.not_mem_nil, or_false] at hm
    rcases hm with rfl | rfl
    · exact .inl (by decide)
    · exact .inr ⟨"key", by decide, rfl⟩

theorem traits_spliced_asset :
    (spliceNested ⟨[describing], by decide⟩ assetClass).map (·.methods.map fun f => (f.name, f.body)) =
        .ok [("describe", 3), ("@key_getter", 4), ("@trait.Describing.describe", 1), ("label", 2)] ∧
      Splices ⟨[describing], by decide⟩ assetClass.uses 1 1 assetClass.methods
        ((spliceNested ⟨[describing], by decide⟩ assetClass).map (·.methods)) :=
  ⟨rfl, (traits_spliced _).2.2 assetClass⟩

end Program
