import GdscriptCompiler.Codegen.Constants
import GdscriptCompiler.Lib.Iteration
import Mathlib.Data.Finset.Basic

/-!
# Match — `match` and `switch`

Pattern tests, guards and bodies are one piece of code each; what they do is given by the values of
the host and by the run. The jump table is made of what the patterns fold to, the tests compare with
what they are when they run.
-/

namespace Codegen

open Lib Lexing Parsing Constants Ir

/-! ## 1. Statements -/

-- `Variant::Type`
abbrev VariantType := Fin 39

namespace VariantType

def nil : VariantType := 0
def bool : VariantType := 1
def int : VariantType := 2
def float : VariantType := 3
def string : VariantType := 4
def stringName : VariantType := 21
def nodePath : VariantType := 22

end VariantType

def literalType : Literal → VariantType
  | .integer _ => .int
  | .float _ => .float
  | .string .plain _ => .string
  | .string .stringName _ => .stringName
  | .string .nodePath _ => .nodePath
  | .bool _ => .bool
  | .null => .nil

/-- What `gen_expr` makes of a pattern in its test. -/
inductive Reading where
  | constant (l : Literal)
  | atRun (id : Nat)

/-- The expression of a value pattern: a literal, or another one with what it folds to, the engine's
integer constant of that name, and what the test reads. -/
inductive PatternValue where
  | literal (l : Literal)
  | expression (folded : Option InitType) (engine : Option Int64) (read : Reading)

/-- `find_global_constant`, when it is an integer. -/
def engineInt (P : ProgramNames) (name : Bytes) : Option Int64 :=
  match P.globalConstant name with
  | some (.int v) => some v
  | _ => none

/-- The fold looks names up in the file alone; the test knows the fields and constants of the class
it is in, which come first. -/
def patternValue {L : Type} (M : Libm) (P : ProgramNames) (read : Expr L → Reading) :
    Expr L → PatternValue
  | .literal l => .literal l
  | .variable name => .expression (foldVariable P name) (engineInt P name) (read (.variable name))
  | e => .expression (foldGlobalInitializer M P e) none (read e)

inductive MatchPattern where
  | value (v : PatternValue)
  | wildcard
  | bind (name : String)
  -- array, dictionary and struct patterns
  | structural (id : Nat)

structure MatchBranch where
  patterns : List MatchPattern
  guard : Bool
  nonempty : patterns ≠ []

def MatchBranch.isCatchAll (b : MatchBranch) : Bool :=
  match b.guard, b.patterns with
  | false, [.wildcard] => true
  | _, _ => false

structure MatchStmt where
  branches : List MatchBranch
  isSwitch : Bool

def firstCatchAll : Nat → List MatchBranch → Option Nat
  | _, [] => none
  | i, b :: rest => if b.isCatchAll then some i else firstCatchAll (i + 1) rest

def MatchStmt.catchAll (m : MatchStmt) : Option Nat := firstCatchAll 0 m.branches

/-! ## 2. The jump table -/

def minSwitchCases : Nat := 4
def maxSwitchSpread : Nat := 3
def maxSwitchEntries : Nat := 4096

structure Case where
  value : Int64
  branch : Nat

-- what an integer pattern folds to
def PatternValue.foldInt : PatternValue → Option Int64
  | literal (.integer v) => some v
  | expression (some (.int v)) _ _ => some v
  | _ => none

def MatchPattern.foldInt : MatchPattern → Option Int64
  | value v => v.foldInt
  | _ => none

-- nothing when an arm is guarded or a pattern is not an integer constant
def collectCases : Nat → List MatchBranch → Option (List Case)
  | _, [] => some []
  | i, b :: rest =>
    if b.isCatchAll then collectCases (i + 1) rest
    else if b.guard then none
    else do
      let values ← b.patterns.mapM MatchPattern.foldInt
      let cases ← collectCases (i + 1) rest
      return values.map (⟨·, i⟩) ++ cases

-- the key that comes first or last in the map
def extremum (before : Int64 → Int64 → Bool) : List Int64 → Int64
  | [] => 0
  | [v] => v
  | v :: rest => if before (extremum before rest) v then extremum before rest else v

def lowest : List Int64 → Int64 := extremum (· < ·)
def highest : List Int64 → Int64 := extremum (· > ·)

/-- `high - low + 1` in `uint64_t`. -/
def tableSpan (values : List Int64) : Nat :=
  ((highest values).toInt - (lowest values).toInt + 1).toNat % 2 ^ 64

inductive MatchLabel where
  | test (i : Nat)
  | body (i : Nat)
  | any (i : Nat)
  | next (i k : Nat)
  | endMatch
  deriving DecidableEq

structure JumpTable where
  low : Int64
  targets : List MatchLabel

def MatchStmt.defaultLabel (m : MatchStmt) : MatchLabel :=
  match m.catchAll with
  | some i => .body i
  | none => .endMatch

-- the first arm that lists a value
def firstBranch (cases : List Case) (v : Int64) : Option Nat :=
  (cases.find? (·.value = v)).map (·.branch)

def MatchStmt.tableEntry (m : MatchStmt) (cases : List Case) (v : Int64) : MatchLabel :=
  match firstBranch cases v with
  | some i => .body i
  | none => m.defaultLabel

-- `match` needs a number of cases, `switch` that no value is listed twice
def MatchStmt.tableFits (m : MatchStmt) (values : List Int64) : Bool :=
  (if m.isSwitch then !values.isEmpty && decide values.Nodup else minSwitchCases ≤ values.length) &&
    tableSpan values ≤ maxSwitchEntries && tableSpan values ≤ values.dedup.length * maxSwitchSpread

def MatchStmt.tableOf (m : MatchStmt) (cases : List Case) : JumpTable :=
  let values := cases.map (·.value)
  { low := lowest values
    targets := (List.range (tableSpan values)).map fun i =>
      m.tableEntry cases (lowest values + Int64.ofNat i) }

/-- `gen_match_jump_table`. -/
def MatchStmt.jumpTable (m : MatchStmt) : Option JumpTable :=
  match collectCases 0 m.branches with
  | none => none
  | some cases => if m.tableFits (cases.map (·.value)) then some (m.tableOf cases) else none

/-! ## 3. The code -/

inductive MatchCode where
  | label (l : MatchLabel)
  | jump (l : MatchLabel)
  | switch (table : JumpTable)
  -- `gen_pattern_test`
  | test (i : Nat) (p : MatchPattern) (fail : MatchLabel)
  -- the guard and the branch on it
  | guard (i : Nat) (fail : MatchLabel)
  -- the statements of an arm
  | body (i : Nat)

def MatchCode.labelOf : MatchCode → Option MatchLabel
  | label l => some l
  | _ => none

-- all patterns but the last go on with the next one when they fail
def genAlternatives (i : Nat) (fail : MatchLabel) : Nat → List MatchPattern → List MatchCode
  | _, [] => []
  | _, [p] => [.test i p fail]
  | k, p :: rest =>
    .test i p (.next i k) :: .jump (.any i) :: .label (.next i k) :: genAlternatives i fail (k + 1) rest

def genPatterns (i : Nat) (fail : MatchLabel) : List MatchPattern → List MatchCode
  | [p] => [.test i p fail]
  | patterns => genAlternatives i fail 0 patterns ++ [.label (.any i)]

def genBranchTest (i : Nat) (b : MatchBranch) (fail : MatchLabel) : List MatchCode :=
  genPatterns i fail b.patterns ++ if b.guard then [.guard i fail] else []

-- a complete table has decided before the tests
def genTests (complete : Bool) (i : Nat) (b : MatchBranch) (rest : List MatchBranch) :
    List MatchCode :=
  if complete then [] else genBranchTest i b (if rest.isEmpty then .endMatch else .test (i + 1))

def genArms (complete : Bool) : Nat → List MatchBranch → List MatchCode
  | _, [] => [.label .endMatch]
  | i, b :: rest =>
    .label (.test i) :: (genTests complete i b rest ++
      .label (.body i) :: .body i :: .jump .endMatch :: genArms complete (i + 1) rest)

/-- `gen_match`; `known` is that the type of the subject is known to be INT. A `switch` without a
table or with another subject is an error. -/
def genMatch (m : MatchStmt) (known : Bool) : List MatchCode :=
  match m.jumpTable with
  | none => genArms false 0 m.branches
  | some table =>
    .switch table :: ((if known then [.jump m.defaultLabel] else []) ++ genArms known 0 m.branches)

/-! ## 4. What it does -/

/-- The values of the host, as far as `match` looks at them: `equal` is CMP_EQ. -/
structure Variants where
  Value : Type
  type : Value → VariantType
  literal : Literal → Value
  equal : Value → Value → Bool
  toInt : Value → Option Int64
  type_literal : ∀ l, type (literal l) = literalType l
  toInt_iff : ∀ v n, toInt v = some n ↔ v = literal (.integer n)
  type_int : ∀ v, type v = .int → ∃ n, toInt v = some n
  equal_int : ∀ a b, equal (literal (.integer a)) (literal (.integer b)) = decide (a = b)
  unlike : ∀ v, ∃ w, equal v w = false

/-- What a run answers in an arm when it comes to the guard, to the value of a pattern or to a
structural pattern. -/
structure MatchRun (H : Variants) where
  guard : Nat → Bool
  value : Nat → Nat → H.Value
  structural : Nat → Nat → H.Value → Bool

section Run

variable {H : Variants} (ρ : MatchRun H) (u : H.Value)

def Reading.eval (i : Nat) : Reading → H.Value
  | constant l => H.literal l
  | atRun id => ρ.value i id

def PatternValue.eval (i : Nat) : PatternValue → H.Value
  | literal l => H.literal l
  | expression _ _ read => read.eval ρ i

def MatchPattern.accepts (i : Nat) : MatchPattern → Bool
  | value v => H.equal u (v.eval ρ i)
  | wildcard => true
  | bind _ => true
  | structural id => ρ.structural i id u

def MatchBranch.takes (b : MatchBranch) (i : Nat) : Bool :=
  b.patterns.any (·.accepts ρ u i) && (!b.guard || ρ.guard i)

def firstArm : Nat → List MatchBranch → Option Nat
  | _, [] => none
  | i, b :: rest => if b.takes ρ u i then some i else firstArm (i + 1) rest

-- only integers dispatch
def JumpTable.lookup (table : JumpTable) : Option MatchLabel :=
  (H.toInt u).bind fun n =>
    if table.low ≤ n then table.targets[(n.toInt - table.low.toInt).toNat]? else none

def matchMachine : Machine MatchCode Unit MatchLabel Nat H.Value where
  labelOf := MatchCode.labelOf
  exec
    | .label _, _ => some ([], (), .next)
    | .jump l, _ => some ([], (), .goto l)
    | .switch table, _ => some ([], (), match table.lookup u with | some l => .goto l | none => .next)
    | .test i p fail, _ => some ([], (), if p.accepts ρ u i then .next else .goto fail)
    | .guard i fail, _ => some ([], (), if ρ.guard i then .next else .goto fail)
    | .body i, _ => some ([i], (), .next)

def MatchLabel.arm : MatchLabel → Option Nat
  | body i => some i
  | _ => none

def MatchStmt.dispatch (m : MatchStmt) (known : Bool) : Option Nat :=
  match m.jumpTable with
  | none => firstArm ρ u 0 m.branches
  | some table =>
    match table.lookup u with
    | some l => l.arm
    | none => if known then m.defaultLabel.arm else firstArm ρ u 0 m.branches

end Run

/-! ## 5. The code runs the arm it dispatches to -/

section Runs

variable {H : Variants} {ρ : MatchRun H} {u : H.Value} {code rest : List MatchCode} {i k : Nat}
  {b : MatchBranch} {branches : List MatchBranch} {p : MatchPattern} {fail : MatchLabel}
  {os : List Nat}

theorem exec_matchLabel (l : MatchLabel) :
    (matchMachine ρ u).exec (.label l) () = some ([], (), .next) := rfl

theorem exec_matchJump (l : MatchLabel) :
    (matchMachine ρ u).exec (.jump l) () = some ([], (), .goto l) := rfl

theorem exec_test_next (h : p.accepts ρ u i = true) :
    (matchMachine ρ u).exec (.test i p fail) () = some ([], (), .next) := by
  change some ([], (), if p.accepts ρ u i then Exit.next else _) = _
  rw [if_pos h]

theorem exec_test_fail (h : p.accepts ρ u i = false) :
    (matchMachine ρ u).exec (.test i p fail) () = some ([], (), .goto fail) := by
  change some ([], (), if p.accepts ρ u i then Exit.next else Exit.goto fail) = _
  rw [if_neg (by simp [h])]

theorem exec_guard_next (h : ρ.guard i = true) :
    (matchMachine ρ u).exec (.guard i fail) () = some ([], (), .next) := by
  change some ([], (), if ρ.guard i then Exit.next else _) = _
  rw [if_pos h]

theorem exec_guard_fail (h : ρ.guard i = false) :
    (matchMachine ρ u).exec (.guard i fail) () = some ([], (), .goto fail) := by
  change some ([], (), if ρ.guard i then Exit.next else Exit.goto fail) = _
  rw [if_neg (by simp [h])]

variable {after failed : List MatchCode}

theorem runs_alternatives {patterns : List MatchPattern} (hne : patterns ≠ [])
    (hplace : genAlternatives i fail k patterns ++ .label (.any i) :: after <:+ code)
    (hfail : .label fail :: failed <:+ code) :
    (matchMachine ρ u).Runs code
      (genAlternatives i fail k patterns ++ .label (.any i) :: after) () []
      (if patterns.any (·.accepts ρ u i) then after else .label fail :: failed) () := by
  have hany : .label (.any i) :: after <:+ code := (List.suffix_append _ _).trans hplace
  induction patterns generalizing k with
  | nil => exact absurd rfl hne
  | cons p rest ih =>
    cases rest with
    | nil =>
      cases haccepts : p.accepts ρ u i with
      | true =>
        rw [if_pos (by simp [haccepts])]
        exact .next (exec_test_next haccepts) (.next (exec_matchLabel _) (.refl _ _))
      | false =>
        rw [if_neg (by simp [haccepts])]
        exact .goto (exec_test_fail haccepts) rfl hfail (.refl _ _)
    | cons q rest =>
      have hnext : .label (.next i k) :: (genAlternatives i fail (k + 1) (q :: rest) ++
        .label (.any i) :: after)
          <:+ code := (List.suffix_append [_, _] _).trans hplace
      cases haccepts : p.accepts ρ u i with
      | true =>
        rw [if_pos (by simp [haccepts])]
        exact .next (exec_test_next haccepts)
          (.goto (exec_matchJump _) rfl hany (.next (exec_matchLabel _) (.refl _ _)))
      | false =>
        have hrest := ih (by simp) ((List.suffix_cons _ _).trans hnext)
        have hsame : (p :: q :: rest).any (·.accepts ρ u i) = (q :: rest).any (·.accepts ρ u i) := by
          rw [List.any_cons, haccepts, Bool.false_or]
        rw [hsame]
        exact .goto (exec_test_fail haccepts) rfl hnext (.next (exec_matchLabel _) hrest)

theorem runs_patterns {patterns : List MatchPattern} (hne : patterns ≠ [])
    (hplace : genPatterns i fail patterns ++ after <:+ code)
    (hfail : .label fail :: failed <:+ code) :
    (matchMachine ρ u).Runs code (genPatterns i fail patterns ++ after) () []
      (if patterns.any (·.accepts ρ u i) then after else .label fail :: failed) () := by
  rcases patterns with _ | ⟨p, _ | ⟨q, rest⟩⟩
  · exact absurd rfl hne
  · cases haccepts : p.accepts ρ u i with
    | true =>
      rw [if_pos (by simp [haccepts])]
      exact .next (exec_test_next haccepts) (.refl _ _)
    | false =>
      rw [if_neg (by simp [haccepts])]
      exact .goto (exec_test_fail haccepts) rfl hfail (.refl _ _)
  · rw [genPatterns, List.append_assoc] at hplace ⊢
    · exact runs_alternatives hne hplace hfail
    · simp
    · simp

theorem runs_branchTest (hplace : genBranchTest i b fail ++ after <:+ code)
    (hfail : .label fail :: failed <:+ code) :
    (matchMachine ρ u).Runs code (genBranchTest i b fail ++ after) () []
      (if b.takes ρ u i then after else .label fail :: failed) () := by
  let guarded := (if b.guard then [MatchCode.guard i fail] else []) ++ after
  have hguard : (matchMachine ρ u).Runs code guarded () []
      (if !b.guard || ρ.guard i then after else .label fail :: failed) () := by
    cases hb : b.guard with
    | false =>
      simp only [guarded, hb]
      exact .refl _ _
    | true =>
      simp only [guarded, hb]
      cases hρ : ρ.guard i with
      | true => exact .next (exec_guard_next hρ) (.refl _ _)
      | false => exact .goto (exec_guard_fail hρ) rfl hfail (.refl _ _)
  have hpatterns : (matchMachine ρ u).Runs code (genBranchTest i b fail ++ after) () []
      (if b.patterns.any (·.accepts ρ u i) then guarded else .label fail :: failed) () := by
    rw [genBranchTest, List.append_assoc] at hplace ⊢
    exact runs_patterns b.nonempty hplace hfail
  cases haccepts : b.patterns.any (·.accepts ρ u i) with
  | true =>
    rw [haccepts, if_pos rfl] at hpatterns
    rw [MatchBranch.takes, haccepts, Bool.true_and]
    exact hpatterns.trans hguard
  | false =>
    rw [haccepts, if_neg Bool.false_ne_true] at hpatterns
    rw [MatchBranch.takes, haccepts, Bool.false_and, if_neg Bool.false_ne_true]
    exact hpatterns

theorem endMatch_suffix (complete : Bool) (i : Nat) (branches : List MatchBranch) :
    [.label .endMatch] <:+ genArms complete i branches := by
  induction branches generalizing i with
  | nil => exact List.suffix_refl _
  | cons b rest ih =>
    rw [genArms]
    exact (ih (i + 1)).trans ((List.suffix_append [_, _, _] _).trans
      ((List.suffix_append _ _).trans (List.suffix_cons _ _)))

-- from the body of an arm
def fromBody (complete : Bool) (i : Nat) (rest : List MatchBranch) : List MatchCode :=
  .label (.body i) :: .body i :: .jump .endMatch :: genArms complete (i + 1) rest

theorem fromBody_suffix (complete : Bool) (i : Nat) {branches : List MatchBranch} {k : Nat}
    (hk : k < branches.length) :
    fromBody complete (i + k) (branches.drop (k + 1)) <:+ genArms complete i branches := by
  induction branches generalizing i k with
  | nil => cases hk
  | cons b rest ih =>
    rw [genArms]
    cases k with
    | zero => exact (List.suffix_append _ _).trans (List.suffix_cons _ _)
    | succ k =>
      have hrest := ih (i + 1) (Nat.lt_of_succ_lt_succ hk)
      rw [Nat.add_assoc, Nat.add_comm 1 k] at hrest
      exact hrest.trans ((List.suffix_append [_, _, _] _).trans
        ((List.suffix_append _ _).trans (List.suffix_cons _ _)))

theorem runs_fromBody {complete : Bool} {rest : List MatchBranch}
    (hend : [.label .endMatch] <:+ code) :
    (matchMachine ρ u).Runs code (fromBody complete i rest) () [i] [] () :=
  .next (exec_matchLabel _) (.next (o := [i]) rfl
    (.goto (exec_matchJump _) rfl hend (.next (exec_matchLabel _) (.refl _ _))))

theorem runs_arms (hplace : genArms false i branches <:+ code) :
    (matchMachine ρ u).Runs code (genArms false i branches) () (firstArm ρ u i branches).toList []
      () := by
  have hend : [.label .endMatch] <:+ code := (endMatch_suffix false i branches).trans hplace
  induction branches generalizing i with
  | nil => exact .next (exec_matchLabel _) (.refl _ _)
  | cons b rest ih =>
    have hrest : genArms false (i + 1) rest <:+ code := by
      refine List.IsSuffix.trans ?_ hplace
      rw [genArms]
      exact (List.suffix_append [_, _, _] _).trans
        ((List.suffix_append _ _).trans (List.suffix_cons _ _))
    have hfail : ∃ failed, genArms false (i + 1) rest =
        .label (if rest.isEmpty then .endMatch else .test (i + 1)) :: failed := by
      cases rest with
      | nil => exact ⟨[], rfl⟩
      | cons b' rest => exact ⟨_, rfl⟩
    obtain ⟨failed, hfailed⟩ := hfail
    have htest : (matchMachine ρ u).Runs code
        (genBranchTest i b (if rest.isEmpty then .endMatch else .test (i + 1)) ++
          fromBody false i rest) ()
        [] (if b.takes ρ u i then fromBody false i rest
          else .label (if rest.isEmpty then .endMatch else .test (i + 1)) :: failed) () :=
      runs_branchTest ((List.suffix_cons _ _).trans hplace) (hfailed ▸ hrest)
    rw [firstArm]
    cases htakes : b.takes ρ u i with
    | true =>
      rw [htakes, if_pos rfl] at htest
      rw [if_pos rfl]
      exact .next (exec_matchLabel _) (htest.trans (runs_fromBody hend))
    | false =>
      rw [htakes, if_neg Bool.false_ne_true, ← hfailed] at htest
      rw [if_neg Bool.false_ne_true]
      exact .next (exec_matchLabel _) (htest.trans (ih hrest))

/-! ## 6. Labels are different -/

def MatchLabel.owner : MatchLabel → Option Nat
  | test i | body i | any i | next i _ => some i
  | endMatch => none

theorem labels_alternatives (i k : Nat) (fail : MatchLabel) (patterns : List MatchPattern) :
    (genAlternatives i fail k patterns).filterMap MatchCode.labelOf =
      (List.range' k (patterns.length - 1)).map (.next i) := by
  induction patterns generalizing k with
  | nil => rfl
  | cons p rest ih =>
    cases rest with
    | nil => rfl
    | cons q rest =>
      have hrest := ih (k + 1)
      simp only [genAlternatives, List.filterMap_cons, MatchCode.labelOf, hrest]
      rfl

-- the test of an arm has labels of its own kinds, each once
theorem labels_branchTest (i : Nat) (b : MatchBranch) (fail : MatchLabel) :
    ((genBranchTest i b fail).filterMap MatchCode.labelOf).Nodup ∧
      ∀ l ∈ (genBranchTest i b fail).filterMap MatchCode.labelOf, l = .any i ∨
        ∃ k, l = .next i k := by
  have hguard : (if b.guard then [MatchCode.guard i fail] else []).filterMap MatchCode.labelOf = [] := by
    cases b.guard <;> rfl
  rw [genBranchTest, List.filterMap_append, hguard, List.append_nil]
  generalize b.patterns = patterns
  have hmany : ((genAlternatives i fail 0 patterns ++ [MatchCode.label (.any i)]).filterMap
    MatchCode.labelOf).Nodup ∧
      ∀ l ∈ (genAlternatives i fail 0 patterns ++ [MatchCode.label (.any i)]).filterMap
        MatchCode.labelOf, l = .any i ∨ ∃ k, l = .next i k := by
    rw [List.filterMap_append, labels_alternatives]
    refine ⟨List.nodup_append.mpr ⟨?_, List.nodup_singleton _, ?_⟩, ?_⟩
    · exact (List.nodup_range' 1).map fun a c h => (MatchLabel.next.inj h).2
    · intro l hl l' hl'
      obtain ⟨k, -, rfl⟩ := List.mem_map.mp hl
      rw [List.mem_singleton.mp hl']
      nofun
    · intro l hl
      rcases List.mem_append.mp hl with hl | hl
      · obtain ⟨k, -, rfl⟩ := List.mem_map.mp hl
        exact .inr ⟨k, rfl⟩
      · exact .inl (List.mem_singleton.mp hl)
  rcases patterns with _ | ⟨p, _ | ⟨q, rest⟩⟩
  · exact hmany
  · exact ⟨List.nodup_nil, nofun⟩
  · exact hmany

section

variable (complete : Bool) (i : Nat)

theorem labels_tests (b : MatchBranch) (rest : List MatchBranch) :
    ((genTests complete i b rest).filterMap MatchCode.labelOf).Nodup ∧
      ∀ l ∈ (genTests complete i b rest).filterMap MatchCode.labelOf, l = .any i ∨
        ∃ k, l = .next i k := by
  cases complete with
  | true => exact ⟨List.nodup_nil, nofun⟩
  | false => exact labels_branchTest i b _

theorem labels_arms_cons (b : MatchBranch) (rest : List MatchBranch) :
    (genArms complete i (b :: rest)).filterMap MatchCode.labelOf =
      .test i :: ((genTests complete i b rest).filterMap MatchCode.labelOf ++
        .body i :: (genArms complete (i + 1) rest).filterMap MatchCode.labelOf) := by
  simp only [genArms, List.filterMap_cons, List.filterMap_append, MatchCode.labelOf]

theorem labels_arms_owner (branches : List MatchBranch) :
    ∀ l ∈ (genArms complete i branches).filterMap MatchCode.labelOf, ∀ j, l.owner = some j →
      i ≤ j := by
  induction branches generalizing i with
  | nil =>
    intro l hl j hj
    rw [List.mem_singleton.mp hl] at hj
    cases hj
  | cons b rest ih =>
    intro l hl j hj
    rw [labels_arms_cons, List.mem_cons, List.mem_append, List.mem_cons] at hl
    rcases hl with rfl | hl | rfl | hl
    · cases hj
      exact Nat.le_refl _
    · obtain rfl | ⟨k, rfl⟩ := (labels_tests complete i b rest).2 l hl
      all_goals cases hj; exact Nat.le_refl _
    · cases hj
      exact Nat.le_refl _
    · exact Nat.le_of_succ_le (ih (i + 1) l hl j hj)

theorem labels_arms_nodup (branches : List MatchBranch) :
    ((genArms complete i branches).filterMap MatchCode.labelOf).Nodup := by
  induction branches generalizing i with
  | nil => exact List.nodup_singleton _
  | cons b rest ih =>
    have howner : ∀ l, l.owner = some i →
        l ∉ (genArms complete (i + 1) rest).filterMap MatchCode.labelOf :=
      fun l hl hmem => absurd (labels_arms_owner complete (i + 1) rest l hmem i hl)
        (Nat.not_succ_le_self i)
    have hrest : (.body i :: (genArms complete (i + 1) rest).filterMap MatchCode.labelOf).Nodup :=
      List.nodup_cons.mpr ⟨howner _ rfl, ih (i + 1)⟩
    have htests := labels_tests complete i b rest
    rw [labels_arms_cons]
    refine List.nodup_cons.mpr ⟨fun hmem => ?_, List.nodup_append.mpr ⟨htests.1, hrest, ?_⟩⟩
    · rw [List.mem_append, List.mem_cons] at hmem
      rcases hmem with hmem | h | hmem
      · obtain h | ⟨k, h⟩ := htests.2 _ hmem
        all_goals cases h
      · cases h
      · exact howner _ rfl hmem
    · rintro l hl l' hl' rfl
      rcases List.mem_cons.mp hl' with rfl | hl'
      · obtain h | ⟨k, h⟩ := htests.2 _ hl
        all_goals cases h
      · obtain rfl | ⟨k, rfl⟩ := htests.2 _ hl
        all_goals exact howner _ rfl hl'

end

theorem labels_match_nodup (m : MatchStmt) (known : Bool) :
    ((genMatch m known).filterMap MatchCode.labelOf).Nodup := by
  rw [genMatch]
  split
  · exact labels_arms_nodup _ _ _
  · rw [List.filterMap_cons_none rfl, List.filterMap_append]
    cases known <;> exact labels_arms_nodup _ _ _

/-! ## 7. The whole statement -/

theorem firstCatchAll_bounds (h : firstCatchAll i branches = some k) :
    i ≤ k ∧ k < i + branches.length := by
  induction branches generalizing i with
  | nil => cases h
  | cons b rest ih =>
    rw [firstCatchAll] at h
    rw [List.length_cons]
    split at h
    · cases h
      omega
    · have hrest := ih h
      omega

variable {cases : List Case}

theorem collectCases_cons {rest : List MatchBranch} (h : collectCases i (b :: rest) = some cases) :
    (b.isCatchAll = true ∧ collectCases (i + 1) rest = some cases) ∨
      (b.isCatchAll = false ∧ b.guard = false ∧
          ∃ values later, b.patterns.mapM MatchPattern.foldInt = some values ∧
        collectCases (i + 1) rest = some later ∧ cases = values.map (⟨·, i⟩) ++ later) := by
  rw [collectCases] at h
  split at h
  · rename_i hcatch
    exact .inl ⟨hcatch, h⟩
  · rename_i hcatch
    split at h
    · cases h
    · rename_i hguard
      obtain ⟨values, hvalues, h⟩ := Option.bind_eq_some_iff.mp h
      obtain ⟨later, hlater, h⟩ := Option.bind_eq_some_iff.mp h
      cases h
      exact .inr ⟨by simpa using hcatch, by simpa using hguard, values, later, hvalues, hlater, rfl⟩

theorem collectCases_bounds (h : collectCases i branches = some cases) :
    ∀ c ∈ cases, i ≤ c.branch ∧ c.branch < i + branches.length := by
  induction branches generalizing i cases with
  | nil =>
    cases h
    nofun
  | cons b rest ih =>
    intro c hc
    rw [List.length_cons]
    obtain ⟨-, hrest⟩ | ⟨-, -, values, later, -, hlater, rfl⟩ := collectCases_cons h
    · have := ih hrest c hc
      omega
    · rcases List.mem_append.mp hc with hc | hc
      · obtain ⟨v, -, rfl⟩ := List.mem_map.mp hc
        dsimp only
        omega
      · have := ih hlater c hc
        omega

theorem firstBranch_bounds {v : Int64} (h : collectCases i branches = some cases)
    (hv : firstBranch cases v = some k) :
    i ≤ k ∧ k < i + branches.length := by
  obtain ⟨c, hc, rfl⟩ := Option.map_eq_some_iff.mp hv
  exact collectCases_bounds h c (List.mem_of_find?_eq_some hc)

-- where a jump out of the table or past it comes to
def Lands (branches : List MatchBranch) (l : MatchLabel) : Prop :=
  l = .endMatch ∨ ∃ k, l = .body k ∧ k < branches.length

theorem lands_default (m : MatchStmt) : Lands m.branches m.defaultLabel := by
  rw [MatchStmt.defaultLabel]
  split
  · rename_i k hk
    have := firstCatchAll_bounds hk
    exact .inr ⟨k, rfl, by omega⟩
  · exact .inl rfl

variable {m : MatchStmt}

theorem lands_entry (h : collectCases 0 m.branches = some cases) (v : Int64) :
    Lands m.branches (m.tableEntry cases v) := by
  rw [MatchStmt.tableEntry]
  split
  · rename_i k hk
    have := firstBranch_bounds h hk
    exact .inr ⟨k, rfl, by omega⟩
  · exact lands_default m

variable {table : JumpTable}

theorem jumpTable_eq_some (h : m.jumpTable = some table) :
    ∃ cases, collectCases 0 m.branches = some cases ∧ m.tableFits (cases.map (·.value)) = true ∧
      table = m.tableOf cases := by
  rw [MatchStmt.jumpTable] at h
  split at h
  · cases h
  · rename_i cases hcases
    split at h
    · rename_i hfits
      cases h
      exact ⟨cases, hcases, hfits, rfl⟩
    · cases h

variable {l : MatchLabel}

theorem lands_lookup (h : m.jumpTable = some table) (hl : table.lookup u = some l) :
    Lands m.branches l := by
  obtain ⟨cases, hcases, -, rfl⟩ := jumpTable_eq_some h
  obtain ⟨n, -, hn⟩ := Option.bind_eq_some_iff.mp hl
  split at hn
  · obtain ⟨j, -, rfl⟩ := List.mem_map.mp (List.mem_of_getElem? hn)
    exact lands_entry hcases _
  · cases hn

theorem runs_landed {complete : Bool} (hl : Lands branches l)
    (hplace : genArms complete 0 branches <:+ code) :
    ∃ landed, .label l :: landed <:+ code ∧
      (matchMachine ρ u).Runs code (.label l :: landed) () l.arm.toList [] () := by
  have hend := (endMatch_suffix complete 0 branches).trans hplace
  obtain rfl | ⟨k, rfl, hk⟩ := hl
  · exact ⟨[], hend, .next (exec_matchLabel _) (.refl _ _)⟩
  · have hbody := (fromBody_suffix complete 0 hk).trans hplace
    rw [Nat.zero_add] at hbody
    exact ⟨_, hbody, runs_fromBody hend⟩

theorem dispatch_entry (htable : m.jumpTable = some table) (hl : table.lookup u = some l)
    (known : Bool) :
    m.dispatch ρ u known = l.arm := by
  simp only [MatchStmt.dispatch, htable, hl]

theorem dispatch_past (htable : m.jumpTable = some table) (hl : table.lookup u = none)
    (known : Bool) :
    m.dispatch ρ u known = if known then m.defaultLabel.arm else firstArm ρ u 0 m.branches := by
  simp only [MatchStmt.dispatch, htable, hl]

theorem dispatch_chain (htable : m.jumpTable = none) (known : Bool) :
    m.dispatch ρ u known = firstArm ρ u 0 m.branches := by
  simp only [MatchStmt.dispatch, htable]

/-- The code runs the arm it dispatches to and no other. -/
theorem runs_match (m : MatchStmt) (known : Bool) :
    (matchMachine ρ u).Runs (genMatch m known) (genMatch m known) () (m.dispatch ρ u known).toList
      [] () := by
  cases htable : m.jumpTable with
  | none =>
    rw [genMatch, dispatch_chain htable, htable]
    exact runs_arms (List.suffix_refl _)
  | some table =>
    let arms := (if known then [MatchCode.jump m.defaultLabel] else []) ++ genArms known 0 m.branches
    have hcode : genMatch m known = .switch table :: arms := by
      rw [genMatch, htable]
    have hplace : genArms known 0 m.branches <:+ genMatch m known :=
      hcode ▸ (List.suffix_append _ _).trans (List.suffix_cons _ _)
    nth_rewrite 2 [hcode]
    cases hl : table.lookup u with
    | some l =>
      obtain ⟨landed, hlanded, hruns⟩ := runs_landed (ρ := ρ) (u := u) (lands_lookup htable hl) hplace
      have hexec : (matchMachine ρ u).exec (.switch table) () = some ([], (), .goto l) := by
        change some ([], (), match table.lookup u with | some l => Exit.goto l | none => .next) = _
        rw [hl]
      rw [dispatch_entry htable hl]
      exact .goto hexec rfl hlanded hruns
    | none =>
      have hexec : (matchMachine ρ u).exec (.switch table) () = some ([], (), .next) := by
        change some ([], (), match table.lookup u with | some l => Exit.goto l | none => .next) = _
        rw [hl]
      rw [dispatch_past htable hl]
      refine .next hexec ?_
      cases known with
      | true =>
        obtain ⟨landed, hlanded, hruns⟩ := runs_landed (ρ := ρ) (u := u) (lands_default m) hplace
        exact .goto (exec_matchJump _) rfl hlanded hruns
      | false => exact runs_arms hplace

/-- The arms a run of the code goes through, from its start to its end. -/
def MatchStmt.RunsArms (m : MatchStmt) (known : Bool) (ρ : MatchRun H) (u : H.Value)
    (arms : List Nat) : Prop :=
  ∃ n, (matchMachine ρ u).Steps (genMatch m known) ⟨0, (), none⟩ n arms ⟨(genMatch m known).length,
    (), none⟩

theorem runsArms_iff (m : MatchStmt) (known : Bool) (arms : List Nat) :
    m.RunsArms known ρ u arms ↔ arms = (m.dispatch ρ u known).toList := by
  obtain ⟨n, hsteps⟩ := (runs_match (ρ := ρ) (u := u) m known).steps (labels_match_nodup m known)
    (List.suffix_refl _)
  have hstart : Machine.place (V := H.Value) (genMatch m known) (genMatch m known) () = ⟨0, (),
    none⟩ := by
    rw [Machine.place, Nat.sub_self]
  rw [hstart] at hsteps
  refine ⟨fun h => ?_, fun h => h ▸ ⟨n, hsteps⟩⟩
  obtain ⟨n', h⟩ := h
  exact (h.eq_of_completed (.inr (Nat.le_refl _)) hsteps (.inr (Nat.le_refl _))).1

end Runs

end Codegen
