import GdscriptCompiler.Codegen.Match

/-!
# MatchDispatch — the arm a `match` runs

The jump table gives the first arm whose patterns fold to the subject, which is another one than the
tests would find when a catch-all arm comes before it, or when a name is not what it folds to.
-/

namespace Codegen

open Lib Lexing Parsing Constants Ir

/-! ## 1. What the table answers -/

/-- The integer has an entry; none has when the span does not fit into `uint64_t`. -/
def InTable (values : List Int64) (n : Int64) : Prop :=
  (lowest values).toInt ≤ n.toInt ∧ n.toInt < (lowest values).toInt + tableSpan values

instance (values : List Int64) (n : Int64) : Decidable (InTable values n) := by
  unfold InTable
  infer_instance

section Table

variable {H : Variants} {ρ : MatchRun H} {u : H.Value} {m : MatchStmt} {cases : List Case}
  {n : Int64} {i k : Nat} {b : MatchBranch} {branches : List MatchBranch}

theorem lookup_eq (hu : H.toInt u = some n) :
    (m.tableOf cases).lookup u =
      if InTable (cases.map (·.value)) n then some (m.tableEntry cases n) else none := by
  have hlookup : (m.tableOf cases).lookup u = if lowest (cases.map (·.value)) ≤ n then
        (m.tableOf cases).targets[(n.toInt - (lowest (cases.map (·.value))).toInt).toNat]? else
        none := by
    rw [JumpTable.lookup, hu]
    rfl
  have htargets : (m.tableOf cases).targets = (List.range (tableSpan (cases.map (·.value)))).map
      fun j => m.tableEntry cases (lowest (cases.map (·.value)) + Int64.ofNat j) := rfl
  have hin : InTable (cases.map (·.value)) n ↔ (lowest (cases.map (·.value))).toInt ≤ n.toInt ∧
      n.toInt < (lowest (cases.map (·.value))).toInt + tableSpan (cases.map (·.value)) := Iff.rfl
  rw [hlookup, htargets]
  simp only [Int64.le_iff_toInt_le]
  generalize lowest (cases.map (·.value)) = low at hin ⊢
  by_cases hle : low.toInt ≤ n.toInt
  · have hentry : low + Int64.ofNat (n.toInt - low.toInt).toNat = n := by
      have hsum : low.toInt + (n.toInt - low.toInt) = n.toInt := by omega
      rw [← Int64.ofInt_eq_ofNat, Int.toNat_of_nonneg (by omega)]
      nth_rewrite 1 [← Int64.ofInt_toInt low]
      rw [← Int64.ofInt_add, hsum, Int64.ofInt_toInt]
    rw [if_pos hle, List.getElem?_map]
    by_cases hspan : (n.toInt - low.toInt).toNat < tableSpan (cases.map (·.value))
    · rw [List.getElem?_range hspan, Option.map_some, hentry, if_pos (hin.mpr ⟨hle, by omega⟩)]
    · rw [List.getElem?_eq_none (by rw [List.length_range]; omega),
        if_neg (fun h => by have := hin.mp h; omega)]
      rfl
  · rw [if_neg hle, if_neg (fun h => hle (hin.mp h).1)]

theorem arm_defaultLabel (m : MatchStmt) : m.defaultLabel.arm = m.catchAll := by
  rw [MatchStmt.defaultLabel]
  cases m.catchAll <;> rfl

theorem arm_tableEntry (m : MatchStmt) (cases : List Case) (n : Int64) :
    (m.tableEntry cases n).arm = (firstBranch cases n).or m.catchAll := by
  rw [MatchStmt.tableEntry]
  cases firstBranch cases n with
  | none => exact arm_defaultLabel m
  | some k => rfl

theorem jumpTable_of_cases (hcases : collectCases 0 m.branches = some cases)
    (hfits : m.tableFits (cases.map (·.value)) = true) :
    m.jumpTable = some (m.tableOf cases) := by
  rw [MatchStmt.jumpTable, hcases]
  exact if_pos hfits

variable {known : Bool}

theorem dispatch_of_cases (hcases : collectCases 0 m.branches = some cases)
    (hfits : m.tableFits (cases.map (·.value)) = true) (hu : H.toInt u = some n) :
    m.dispatch ρ u known =
      if InTable (cases.map (·.value)) n then (firstBranch cases n).or m.catchAll
      else if known then m.catchAll else firstArm ρ u 0 m.branches := by
  have htable := jumpTable_of_cases hcases hfits
  have hlookup : (m.tableOf cases).lookup u = _ := lookup_eq hu
  split
  · rename_i hin
    rw [if_pos hin] at hlookup
    rw [dispatch_entry htable hlookup, arm_tableEntry]
  · rename_i hout
    rw [if_neg hout] at hlookup
    rw [dispatch_past htable hlookup, arm_defaultLabel]

/-! ## 2. Listed against taken -/

/-- A pattern of the arm folds to the integer. -/
def MatchBranch.lists (b : MatchBranch) (n : Int64) : Bool :=
  b.patterns.any fun p => p.foldInt = some n

def firstListed (listed : MatchBranch → Bool) : Nat → List MatchBranch → Option Nat
  | _, [] => none
  | i, b :: rest => if listed b then some i else firstListed listed (i + 1) rest

theorem firstListed_le {listed : MatchBranch → Bool} (h : firstListed listed k branches = some i) :
    k ≤ i := by
  induction branches generalizing k with
  | nil => cases h
  | cons c rest ih =>
    rw [firstListed] at h
    split at h
    · cases h
      exact Nat.le_refl _
    · exact Nat.le_of_succ_le (ih h)

theorem firstListed_eq_none {listed : MatchBranch → Bool} :
    firstListed listed i branches = none ↔ branches.any listed = false := by
  induction branches generalizing i with
  | nil => simp [firstListed]
  | cons b rest ih =>
    rw [firstListed, List.any_cons]
    cases listed b with
    | true => simp
    | false => simpa using ih

theorem firstArm_le (h : firstArm ρ u k branches = some i) : k ≤ i := by
  induction branches generalizing k with
  | nil => cases h
  | cons c rest ih =>
    rw [firstArm] at h
    split at h
    · cases h
      exact Nat.le_refl _
    · exact Nat.le_of_succ_le (ih h)

theorem patterns_of_catchAll (h : b.isCatchAll = true) :
    b.guard = false ∧ b.patterns = [.wildcard] := by
  rw [MatchBranch.isCatchAll] at h
  split at h
  · exact ⟨‹_›, ‹_›⟩
  · cases h

theorem catchAll_takes (h : b.isCatchAll = true) (i : Nat) : b.takes ρ u i = true := by
  obtain ⟨hguard, hpatterns⟩ := patterns_of_catchAll h
  simp [MatchBranch.takes, hguard, hpatterns, MatchPattern.accepts]

theorem not_lists_of_catchAll (h : b.isCatchAll = true) (n : Int64) : b.lists n = false := by
  rw [MatchBranch.lists, (patterns_of_catchAll h).2]
  rfl

theorem mapM_eq_some {α β : Type} {f : α → Option β} {l : List α} {ys : List β}
    (h : l.mapM f = some ys) (y : β) :
    (∀ x ∈ l, (f x).isSome) ∧ (y ∈ ys ↔ ∃ x ∈ l, f x = some y) := by
  induction l generalizing ys with
  | nil =>
    cases h
    simp
  | cons x rest ih =>
    rw [List.mapM_cons] at h
    obtain ⟨z, hz, h⟩ := Option.bind_eq_some_iff.mp h
    obtain ⟨zs, hzs, h⟩ := Option.bind_eq_some_iff.mp h
    cases h
    obtain ⟨hall, hmem⟩ := ih hzs
    refine ⟨List.forall_mem_cons.mpr ⟨Option.isSome_of_eq_some hz, hall⟩, ?_⟩
    rw [List.mem_cons, hmem, List.exists_mem_cons_iff, hz, Option.some_inj, eq_comm]

theorem lists_eq {values : List Int64} (h : b.patterns.mapM MatchPattern.foldInt = some values) :
    b.lists n = decide (n ∈ values) := by
  rw [MatchBranch.lists, Bool.eq_iff_iff, decide_eq_true_eq, (mapM_eq_some h n).2]
  simp

theorem firstBranch_append {values : List Int64} {later : List Case} :
    firstBranch (values.map (⟨·, i⟩) ++ later) n =
      if n ∈ values then some i else firstBranch later n := by
  induction values with
  | nil => rfl
  | cons v rest ih =>
    by_cases hv : v = n
    · subst hv
      rw [if_pos (List.mem_cons_self ..), firstBranch, List.map_cons, List.cons_append,
        List.find?_cons_of_pos (by simp)]
      rfl
    · have hmem : n ∈ v :: rest ↔ n ∈ rest := by
        rw [List.mem_cons]
        exact or_iff_right (Ne.symm hv)
      rw [if_congr hmem rfl rfl, ← ih, firstBranch, List.map_cons, List.cons_append,
        List.find?_cons_of_neg (by simpa using hv), firstBranch]

/-- The table keeps the first arm that lists an integer. -/
theorem firstBranch_eq (h : collectCases i branches = some cases) :
    firstBranch cases n = firstListed (·.lists n) i branches := by
  induction branches generalizing i cases with
  | nil =>
    cases h
    rfl
  | cons b rest ih =>
    rw [firstListed]
    obtain ⟨hcatch, hrest⟩ | ⟨-, -, values, later, hvalues, hlater, rfl⟩ := collectCases_cons h
    · rw [not_lists_of_catchAll hcatch, if_neg Bool.false_ne_true]
      exact ih hrest
    · rw [firstBranch_append, ih hlater, lists_eq hvalues]
      simp only [decide_eq_true_eq]

/-- Going through the arms, the first that is listed or takes the subject is not both, or a listed
one comes behind a catch-all arm. -/
def strays (ρ : MatchRun H) (u : H.Value) (listed : MatchBranch → Bool) :
    Nat → List MatchBranch → Bool
  | _, [] => false
  | i, b :: rest =>
    if b.isCatchAll then rest.any listed
    else
      match listed b, b.takes ρ u i with
      | true, taken => !taken
      | false, true => true
      | false, false => strays ρ u listed (i + 1) rest

theorem strays_eq_false_iff {listed : MatchBranch → Bool}
    (hcatchAll : ∀ b : MatchBranch, b.isCatchAll = true → listed b = false) :
    (firstListed listed i branches).or (firstCatchAll i branches) = firstArm ρ u i branches ↔
      strays ρ u listed i branches = false := by
  induction branches generalizing i with
  | nil => simp [firstListed, firstCatchAll, firstArm, strays]
  | cons b rest ih =>
    rw [firstListed, firstCatchAll, firstArm, strays]
    cases hcatch : b.isCatchAll with
    | true =>
      rw [hcatchAll b hcatch, catchAll_takes hcatch, if_neg Bool.false_ne_true, if_pos rfl, if_pos rfl,
        if_pos rfl, ← firstListed_eq_none (i := i + 1)]
      cases hlisted : firstListed listed (i + 1) rest with
      | none => simp
      | some k =>
        have := firstListed_le hlisted
        simp only [Option.some_or, Option.some_inj, reduceCtorEq, iff_false]
        omega
    | false =>
      rw [if_neg Bool.false_ne_true, if_neg Bool.false_ne_true]
      cases listed b with
      | true =>
        cases htakes : b.takes ρ u i with
        | true => simp
        | false =>
          simp only [if_true, Option.some_or, Bool.false_eq_true, if_false, Bool.not_false,
            reduceCtorEq, iff_false]
          intro h
          have := firstArm_le h.symm
          omega
      | false =>
        cases htakes : b.takes ρ u i with
        | false => simpa using ih
        | true =>
          simp only [Bool.false_eq_true, if_false, if_true, reduceCtorEq, iff_false]
          intro h
          rcases Option.or_eq_some_iff.mp h with h | ⟨-, h⟩
          · have := firstListed_le h
            omega
          · have := (firstCatchAll_bounds h).1
            omega

/-! ## 3. Where the code runs another arm -/

/-- The table decides on an integer, and strays. -/
def MatchStmt.Misdirects (m : MatchStmt) (known : Bool) (ρ : MatchRun H) (u : H.Value) : Prop :=
  ∃ cases n, collectCases 0 m.branches = some cases ∧ m.tableFits (cases.map (·.value)) = true ∧
    H.toInt u = some n ∧ (known = true ∨ InTable (cases.map (·.value)) n) ∧
    strays ρ u (fun b => InTable (cases.map (·.value)) n && b.lists n) 0 m.branches = true

theorem dispatch_eq_firstArm_iff (hcases : collectCases 0 m.branches = some cases)
    (hfits : m.tableFits (cases.map (·.value)) = true) (hu : H.toInt u = some n) :
    firstArm ρ u 0 m.branches = m.dispatch ρ u known ↔ ¬m.Misdirects known ρ u := by
  have hmisdirects : m.Misdirects known ρ u ↔ (known = true ∨ InTable (cases.map (·.value)) n) ∧
      strays ρ u (fun b => InTable (cases.map (·.value)) n && b.lists n) 0 m.branches = true := by
    constructor
    · rintro ⟨cases', n', hcases', -, hu', h⟩
      cases hcases.symm.trans hcases'
      cases hu.symm.trans hu'
      exact h
    · intro h
      exact ⟨cases, n, hcases, hfits, hu, h⟩
  have hstrays : (firstListed (fun b => InTable (cases.map (·.value)) n && b.lists n) 0 m.branches).or
      (firstCatchAll 0 m.branches) = firstArm ρ u 0 m.branches ↔
        strays ρ u (fun b => InTable (cases.map (·.value)) n && b.lists n) 0 m.branches = false :=
    strays_eq_false_iff fun b hb => by rw [not_lists_of_catchAll hb, Bool.and_false]
  rw [dispatch_of_cases hcases hfits hu, hmisdirects, eq_comm]
  by_cases hin : InTable (cases.map (·.value)) n
  · simp only [hin, decide_true, Bool.true_and] at hstrays
    simp only [hin, if_true, or_true, true_and, decide_true, Bool.true_and, Bool.not_eq_true]
    rw [firstBranch_eq hcases]
    exact hstrays
  · have hnone : firstListed (fun _ => false) 0 m.branches = none := firstListed_eq_none.mpr (by simp)
    simp only [hin, decide_false, Bool.false_and, hnone, Option.none_or] at hstrays
    cases known with
    | false => simp [hin]
    | true =>
      simp only [hin, if_false, if_true, true_or, true_and, decide_false, Bool.false_and,
        Bool.not_eq_true]
      exact hstrays

theorem toList_inj {α : Type} {a b : Option α} : a.toList = b.toList ↔ a = b := by
  cases a <;> cases b <;> simp

/-- Literals as values: integers and floats compare as numbers, Strings and StringNames as texts. -/
def literalVariants : Variants where
  Value := Literal
  type := literalType
  literal l := l
  equal
    | .integer a, .integer b => a = b
    | .integer a, .float d => a.toFloat == Float.ofBits d
    | .float d, .integer a => Float.ofBits d == a.toFloat
    | .float d, .float e => Float.ofBits d == Float.ofBits e
    | .string .nodePath s, .string .nodePath t => s = t
    | .string .nodePath _, _ => false
    | .string _ _, .string .nodePath _ => false
    | .string _ s, .string _ t => s = t
    | .bool a, .bool b => a = b
    | .null, .null => true
    | _, _ => false
  toInt
    | .integer n => some n
    | _ => none
  type_literal _ := rfl
  toInt_iff v n := by cases v <;> simp
  type_int v h := by
    cases v with
    | integer n => exact ⟨n, rfl⟩
    | string type s => cases type <;> cases h
    | float d => cases h
    | bool b => cases h
    | null => cases h
  equal_int a b := rfl
  unlike
    | .null => ⟨.integer 0, rfl⟩
    | .integer _ => ⟨.null, rfl⟩
    | .float _ => ⟨.null, rfl⟩
    | .string .plain _ => ⟨.null, rfl⟩
    | .string .stringName _ => ⟨.null, rfl⟩
    | .string .nodePath _ => ⟨.null, rfl⟩
    | .bool _ => ⟨.null, rfl⟩

def literalArm (l : Literal) : MatchBranch := ⟨[.value (.literal l)], false, by simp⟩

def wildcardArm : MatchBranch := ⟨[.wildcard], false, by simp⟩

-- `match n:` with the arms 1, _, 2, 3, 4
def lateArms : MatchStmt where
  branches := [literalArm (.integer 1), wildcardArm, literalArm (.integer 2), literalArm (.integer 3),
    literalArm (.integer 4)]
  isSwitch := false

-- guards hold, values are null and structural patterns fail
def quietRun : MatchRun literalVariants where
  guard _ := true
  value _ _ := Literal.null
  structural _ _ _ := false

def integerSubject (n : Int64) : literalVariants.Value := literalVariants.literal (.integer n)

-- the file has `const A = 1`, and a class `K` its own `const A = 5`
def fileNames : ProgramNames where
  shadowed _ := false
  lineage := []
  classLineage _ := none
  classConstant name := if name = bytes "K.A" then some (.int 5) else none
  globalConst name := if name = bytes "A" then some (.int 1) else none
  enumMember _ := none
  enum _ := none
  globalConstant _ := none
  globalEnumValue _ _ := none

-- `A` in a method of `K`
def shadowedName : PatternValue :=
  patternValue (L := Unit) ⟨fun x _ => x, fun x _ => x⟩ fileNames (fun _ => .constant (.integer 5))
    (.variable (bytes "A"))

-- `match n:` with the arms A, 2, 3, 4
def shadowedArms : MatchStmt where
  branches := [⟨[.value shadowedName], false, by simp⟩, literalArm (.integer 2), literalArm (.integer 3),
    literalArm (.integer 4)]
  isSwitch := false

end Table

end Codegen
