import GdscriptCompiler.Codegen.MatchDispatch
import Mathlib.Data.Finset.Lattice.Basic

/-!
# MatchNarrowing — the type of the subject inside an arm

A literal lists the type of the literal, so an arm that takes one integer removes all integers from
the later ones.
-/

namespace Codegen

open Lib Lexing Parsing Constants

/-! ## 1. The sets -/

inductive MatchSubject where
  -- the variable itself, with the type recorded for it before the match
  | plain (recorded : Option VariantType)
  -- `typeof(x)`
  | typeof

-- the register of the subject is known to hold an integer
def MatchSubject.known : MatchSubject → Bool
  | plain recorded => recorded = some .int
  | typeof => true

def tagOf (n : Int64) : Option VariantType :=
  if h : 0 ≤ n.toInt ∧ n.toInt < 39 then some ⟨n.toInt.toNat, by omega⟩ else none

def PatternValue.engine : PatternValue → Option Int64
  | literal _ => none
  | expression _ engine _ => engine

def PatternValue.tagType (p : PatternValue) : Option VariantType :=
  (p.foldInt.bind tagOf).or (p.engine.bind tagOf)

def PatternValue.literalType : PatternValue → Option VariantType
  | literal l => some (Codegen.literalType l)
  | expression _ _ _ => none

def MatchSubject.patternType (s : MatchSubject) : MatchPattern → Option VariantType
  | .value p =>
    match s with
    | plain _ => p.literalType
    | typeof => p.tagType
  | _ => none

section Sets

variable (declared : Finset VariantType) (s : MatchSubject)

/-- `arm_narrowing`; the empty set stands for any type. -/
def armNarrowing (b : MatchBranch) : Finset VariantType :=
  match b.patterns.mapM s.patternType with
  | none => ∅
  | some types => types.toFinset ∩ declared

-- `remaining_narrowed` goes through all arms
def armSets : Finset VariantType → List MatchBranch → List (Finset VariantType)
  | _, [] => []
  | remaining, b :: rest =>
    if b.isCatchAll then remaining :: armSets remaining rest
    else armNarrowing declared s b ::
      armSets (if armNarrowing declared s b = ∅ then remaining else remaining \ armNarrowing
        declared s b) rest

def MatchStmt.armSets (m : MatchStmt) : List (Finset VariantType) :=
  Codegen.armSets declared s declared m.branches

def Allows (set : Finset VariantType) (type : VariantType) : Prop := set = ∅ ∨ type ∈ set

/-- Every pattern of the arm is a literal (for `typeof`, a type tag), and one of them has the type.
-/
def MatchBranch.Carries (b : MatchBranch) (type : VariantType) : Prop :=
  (∀ p ∈ b.patterns, (s.patternType p).isSome) ∧ ∃ p ∈ b.patterns, s.patternType p = some type

def CarriedBefore (branches : List MatchBranch) (i : Nat) (type : VariantType) : Prop :=
  ∃ j b, j < i ∧ branches[j]? = some b ∧ b.Carries s type

variable {declared s} {branches : List MatchBranch} {remaining set : Finset VariantType}
  {b : MatchBranch} {i : Nat} {type : VariantType}

theorem mapM_isSome {α β : Type} {f : α → Option β} {l : List α} (h : ∀ x ∈ l, (f x).isSome) :
    ∃ ys, l.mapM f = some ys := by
  induction l with
  | nil => exact ⟨[], rfl⟩
  | cons x rest ih =>
    obtain ⟨y, hy⟩ := Option.isSome_iff_exists.mp (h x List.mem_cons_self)
    obtain ⟨ys, hys⟩ := ih fun z hz => h z (List.mem_cons_of_mem _ hz)
    exact ⟨y :: ys, by rw [List.mapM_cons, hy, hys]; rfl⟩

theorem mem_armNarrowing :
    type ∈ armNarrowing declared s b ↔ type ∈ declared ∧ b.Carries s type := by
  rw [armNarrowing, MatchBranch.Carries]
  cases htypes : b.patterns.mapM s.patternType with
  | none =>
    refine iff_of_false (Finset.notMem_empty type) fun h => ?_
    obtain ⟨types, hsome⟩ := mapM_isSome h.2.1
    cases htypes.symm.trans hsome
  | some types =>
    obtain ⟨hall, hmem⟩ := mapM_eq_some htypes type
    rw [Finset.mem_inter, List.mem_toFinset, hmem, and_comm, and_congr_right_iff]
    exact fun _ => (and_iff_right hall).symm

theorem not_carries_of_catchAll (h : b.isCatchAll = true) : ¬b.Carries s type := by
  intro hcarries
  have hwildcard := hcarries.1 .wildcard
    (by rw [(patterns_of_catchAll h).2]; exact List.mem_singleton_self _)
  cases hwildcard

theorem not_carriedBefore_zero : ¬CarriedBefore s branches 0 type :=
  fun ⟨j, _, hj, _⟩ => Nat.not_lt_zero j hj

theorem carriedBefore_succ {c : MatchBranch} :
    CarriedBefore s (c :: branches) (i + 1) type ↔ c.Carries s type ∨
      CarriedBefore s branches i type := by
  constructor
  · rintro ⟨j, b, hj, hb, hcarries⟩
    cases j with
    | zero =>
      cases hb
      exact .inl hcarries
    | succ j => exact .inr ⟨j, b, Nat.lt_of_succ_lt_succ hj, hb, hcarries⟩
  · rintro (hcarries | ⟨j, b, hj, hb, hcarries⟩)
    · exact ⟨0, c, Nat.succ_pos i, rfl, hcarries⟩
    · exact ⟨j + 1, b, Nat.succ_lt_succ hj, hb, hcarries⟩

-- the set of an arm, from what remained before the first
theorem mem_armSets (hremaining : remaining ⊆ declared) (hb : branches[i]? = some b)
    (hset : (armSets declared s remaining branches)[i]? = some set) :
    type ∈ set ↔ if b.isCatchAll then type ∈ remaining ∧ ¬CarriedBefore s branches i type
      else type ∈ declared ∧ b.Carries s type := by
  induction branches generalizing i remaining with
  | nil => cases hb
  | cons c rest ih =>
    rw [armSets] at hset
    cases i with
    | zero =>
      cases hb
      split at hset
      · rename_i hcatch
        cases hset
        rw [if_pos hcatch]
        exact (and_iff_left not_carriedBefore_zero).symm
      · rename_i hcatch
        cases hset
        rw [if_neg hcatch]
        exact mem_armNarrowing
    | succ i =>
      rw [carriedBefore_succ]
      cases hcatch : c.isCatchAll with
      | true =>
        rw [hcatch, if_pos rfl] at hset
        rw [ih hremaining hb hset, or_iff_right (not_carries_of_catchAll hcatch)]
      | false =>
        rw [hcatch, if_neg Bool.false_ne_true] at hset
        have hkept : ∀ t, t ∈ (if armNarrowing declared s c = ∅ then remaining
            else remaining \ armNarrowing declared s c) ↔ t ∈ remaining ∧ ¬c.Carries s t := by
          intro t
          have hmem : t ∈ remaining → (t ∈ armNarrowing declared s c ↔ c.Carries s t) := fun ht =>
            mem_armNarrowing.trans (and_iff_right (hremaining ht))
          split
          · rename_i hempty
            rw [hempty] at hmem
            exact ⟨fun ht => ⟨ht, fun hcarries => Finset.notMem_empty t ((hmem ht).mpr hcarries)⟩,
              And.left⟩
          · rw [Finset.mem_sdiff, and_congr_right_iff]
            exact fun ht => not_congr (hmem ht)
        rw [ih (fun t ht => hremaining ((hkept t).mp ht).1) hb hset, hkept, not_or, and_assoc]

theorem branch_of_armSets (hset : (armSets declared s remaining branches)[i]? = some set) :
    ∃ b, branches[i]? = some b := by
  induction branches generalizing i remaining with
  | nil => cases hset
  | cons c rest ih =>
    rw [armSets] at hset
    cases i with
    | zero => exact ⟨c, rfl⟩
    | succ i => split at hset <;> exact ih hset

theorem armSets_isSome (hb : branches[i]? = some b) :
    ∃ set, (armSets declared s remaining branches)[i]? = some set := by
  induction branches generalizing i remaining with
  | nil => cases hb
  | cons c rest ih =>
    rw [armSets]
    cases i with
    | zero => split <;> exact ⟨_, rfl⟩
    | succ i => split <;> exact ih hb

end Sets

/-! ## 2. Which arms a value can reach -/

section Reach

variable {H : Variants} (u : H.Value)

-- accepts whatever the run answers
def MatchPattern.surely : MatchPattern → Bool
  | value (.literal l) => H.equal u (H.literal l)
  | value (.expression _ _ (.constant l)) => H.equal u (H.literal l)
  | value (.expression _ _ (.atRun _)) => false
  | wildcard => true
  | bind _ => true
  | structural _ => false

-- accepts for some answer
def MatchPattern.possibly : MatchPattern → Bool
  | value (.literal l) => H.equal u (H.literal l)
  | value (.expression _ _ (.constant l)) => H.equal u (H.literal l)
  | value (.expression _ _ (.atRun _)) => true
  | wildcard => true
  | bind _ => true
  | structural _ => true

def MatchBranch.surelyTakes (b : MatchBranch) : Bool := !b.guard && b.patterns.any (·.surely u)

def MatchBranch.mayTake (b : MatchBranch) : Bool := b.patterns.any (·.possibly u)

/-- No arm before number `i` is sure to take the subject, and that one may. -/
def MatchStmt.PassesTo (m : MatchStmt) (i : Nat) : Prop :=
  (∃ b, m.branches[i]? = some b ∧ b.mayTake u = true) ∧
    ∀ j b, j < i → m.branches[j]? = some b → b.surelyTakes u = false

/-- The arm (or none) that the table decides on before any test. -/
def MatchStmt.tableArm (m : MatchStmt) (known : Bool) : Option (Option Nat) :=
  match collectCases 0 m.branches, H.toInt u with
  | some cases, some n =>
    if !m.tableFits (cases.map (·.value)) then none
    else if InTable (cases.map (·.value)) n then some ((firstBranch cases n).or m.catchAll)
    else if known then some m.catchAll
    else none
  | _, _ => none

/-- Some run comes from the subject to the body of arm `i`. -/
def MatchStmt.Reachable (m : MatchStmt) (known : Bool) (i : Nat) : Prop :=
  match m.tableArm u known with
  | some arm => arm = some i
  | none => m.PassesTo u i

end Reach

section Reaches

variable {H : Variants} {ρ : MatchRun H} {u : H.Value} {m : MatchStmt} {known : Bool} {i k : Nat}
  {b : MatchBranch} {branches : List MatchBranch}

theorem dispatch_eq (hknown : known = true → ∃ n, H.toInt u = some n) :
    m.dispatch ρ u known = (m.tableArm u known).getD (firstArm ρ u 0 m.branches) := by
  rw [MatchStmt.tableArm]
  cases hcases : collectCases 0 m.branches with
  | none =>
    have htable : m.jumpTable = none := by rw [MatchStmt.jumpTable, hcases]
    exact dispatch_chain htable known
  | some cases =>
    by_cases hfits : m.tableFits (cases.map (·.value)) = true
    · cases hu : H.toInt u with
      | some n =>
        rw [dispatch_of_cases hcases hfits hu]
        simp only [hfits, Bool.not_true, Bool.false_eq_true, if_false]
        split
        · rfl
        · cases known <;> rfl
      | none =>
        have hlookup : (m.tableOf cases).lookup u = none := by
          rw [JumpTable.lookup, hu]
          rfl
        have hunknown : known = false := by
          cases known with
          | false => rfl
          | true =>
            obtain ⟨n, hn⟩ := hknown rfl
            rw [hu] at hn
            cases hn
        rw [dispatch_past (jumpTable_of_cases hcases hfits) hlookup, hunknown]
        rfl
    · have htable : m.jumpTable = none := by
        rw [MatchStmt.jumpTable, hcases]
        exact if_neg hfits
      rw [dispatch_chain htable]
      cases H.toInt u with
      | none => rfl
      | some n => simp [hfits]

theorem firstArm_eq_some :
    firstArm ρ u k branches = some (k + i) ↔
      (∃ b, branches[i]? = some b ∧ b.takes ρ u (k + i) = true) ∧
        ∀ j b, j < i → branches[j]? = some b → b.takes ρ u (k + j) = false := by
  induction branches generalizing k i with
  | nil => simp [firstArm]
  | cons c rest ih =>
    rw [firstArm]
    cases i with
    | zero =>
      cases htakes : c.takes ρ u k with
      | true => simp [htakes]
      | false =>
        have hlater : firstArm ρ u (k + 1) rest ≠ some k := fun h => by
          have := firstArm_le h
          omega
        simp [htakes, hlater]
    | succ i =>
      cases htakes : c.takes ρ u k with
      | true =>
        rw [if_pos rfl, Option.some_inj]
        refine ⟨fun h => by omega, fun h => ?_⟩
        have hfirst := h.2 0 c (Nat.succ_pos i) rfl
        rw [Nat.add_zero, htakes] at hfirst
        cases hfirst
      | false =>
        have hsum : ∀ j, k + (j + 1) = k + 1 + j := fun j => by omega
        rw [if_neg Bool.false_ne_true, hsum i, ih]
        refine and_congr_right fun _ => ⟨fun hall j b hj hb => ?_, fun hall j b hj hb => ?_⟩
        · cases j with
          | zero =>
            cases hb
            exact htakes
          | succ j =>
            rw [hsum]
            exact hall j b (Nat.lt_of_succ_lt_succ hj) hb
        · rw [← hsum]
          exact hall (j + 1) b (Nat.succ_lt_succ hj) hb

variable {p : MatchPattern}

theorem accepts_of_surely (h : p.surely u = true) : p.accepts ρ u i = true := by
  cases p with
  | value e =>
    cases e with
    | literal l => exact h
    | expression folded engine read =>
      cases read with
      | constant l => exact h
      | atRun id => cases h
  | wildcard => rfl
  | bind name => rfl
  | structural id => cases h

theorem possibly_of_accepts (h : p.accepts ρ u i = true) : p.possibly u = true := by
  cases p with
  | value e =>
    cases e with
    | literal l => exact h
    | expression folded engine read =>
      cases read with
      | constant l => exact h
      | atRun id => rfl
  | wildcard => rfl
  | bind name => rfl
  | structural id => rfl

theorem takes_of_surelyTakes (h : b.surelyTakes u = true) : b.takes ρ u i = true := by
  rw [MatchBranch.surelyTakes, Bool.and_eq_true] at h
  obtain ⟨p, hp, hsurely⟩ := List.any_eq_true.mp h.2
  rw [MatchBranch.takes, Bool.and_eq_true]
  exact ⟨List.any_eq_true.mpr ⟨p, hp, accepts_of_surely hsurely⟩, by rw [h.1, Bool.true_or]⟩

theorem mayTake_of_takes (h : b.takes ρ u i = true) : b.mayTake u = true := by
  rw [MatchBranch.takes, Bool.and_eq_true] at h
  obtain ⟨p, hp, haccepts⟩ := List.any_eq_true.mp h.1
  exact List.any_eq_true.mpr ⟨p, hp, possibly_of_accepts haccepts⟩

/-- A run that answers yes in arm `i` and no elsewhere. -/
def onlyIn (i : Nat) (u w : H.Value) : MatchRun H where
  guard k := k = i
  value k _ := if k = i then u else w
  structural k _ _ := k = i

theorem not_takes_onlyIn {w : H.Value} (hw : H.equal u w = false) (hk : k ≠ i)
    (h : b.surelyTakes u = false) :
    b.takes (onlyIn i u w) u k = false := by
  have hguard : (onlyIn i u w).guard k = false := decide_eq_false hk
  have haccepts : ∀ p : MatchPattern, p.accepts (onlyIn i u w) u k = p.surely u := by
    intro p
    cases p with
    | value e =>
      cases e with
      | literal l => rfl
      | expression folded engine read =>
        cases read with
        | constant l => rfl
        | atRun id =>
          have hvalue : (onlyIn i u w).value k id = w := if_neg hk
          rw [MatchPattern.accepts, PatternValue.eval, Reading.eval, hvalue, hw]
          rfl
    | wildcard => rfl
    | bind name => rfl
    | structural id => exact decide_eq_false hk
  rw [MatchBranch.takes, hguard, Bool.or_false]
  simp only [haccepts]
  rw [Bool.and_comm]
  exact h

variable
  (hself : (∀ folded engine id, .value (.expression folded engine (.atRun id)) ∉ b.patterns) ∨
      H.equal u u = true)
include hself

theorem takes_onlyIn {w : H.Value} (h : b.mayTake u = true) :
    b.takes (onlyIn i u w) u i = true := by
  obtain ⟨p, hp, hpossibly⟩ := List.any_eq_true.mp h
  rw [MatchBranch.takes, Bool.and_eq_true]
  refine ⟨List.any_eq_true.mpr ⟨p, hp, ?_⟩, by simp [onlyIn]⟩
  cases p with
  | value e =>
    cases e with
    | literal l => exact hpossibly
    | expression folded engine read =>
      cases read with
      | constant l => exact hpossibly
      | atRun id =>
        have hvalue : (onlyIn i u w).value i id = u := if_pos rfl
        rw [MatchPattern.accepts, PatternValue.eval, Reading.eval, hvalue]
        exact hself.resolve_left fun hnone => hnone folded engine id hp
  | wildcard => rfl
  | bind name => rfl
  | structural id => exact decide_eq_true rfl

-- the run that asks for arm `i` shows that its tests can be passed
theorem exists_firstArm_iff (hb : m.branches[i]? = some b) :
    (∃ ρ : MatchRun H, firstArm ρ u 0 m.branches = some i) ↔ m.PassesTo u i := by
  have hiff : ∀ ρ : MatchRun H, firstArm ρ u 0 m.branches = some i ↔
      (∃ b, m.branches[i]? = some b ∧ b.takes ρ u i = true) ∧
        ∀ j b, j < i → m.branches[j]? = some b → b.takes ρ u j = false := fun ρ => by
    have h : firstArm ρ u 0 m.branches = some (0 + i) ↔ _ := firstArm_eq_some
    simp only [Nat.zero_add] at h
    exact h
  constructor
  · rintro ⟨ρ, hfirst⟩
    obtain ⟨⟨c, hc, htakes⟩, hpast⟩ := (hiff ρ).mp hfirst
    refine ⟨⟨c, hc, mayTake_of_takes htakes⟩, fun j d hj hd => ?_⟩
    cases hsure : d.surelyTakes u with
    | false => rfl
    | true =>
      have hnot := hpast j d hj hd
      rw [takes_of_surelyTakes hsure] at hnot
      cases hnot
  · rintro ⟨⟨c, hc, hmay⟩, hpast⟩
    cases hb.symm.trans hc
    obtain ⟨w, hw⟩ := H.unlike u
    refine ⟨onlyIn i u w, (hiff _).mpr ⟨⟨b, hb, takes_onlyIn hself hmay⟩, fun j d hj hd => ?_⟩⟩
    exact not_takes_onlyIn hw (Nat.ne_of_lt hj) (hpast j d hj hd)

theorem exists_dispatch_iff (hknown : known = true → ∃ n, H.toInt u = some n)
    (hb : m.branches[i]? = some b) :
    (∃ ρ : MatchRun H, m.dispatch ρ u known = some i) ↔ m.Reachable u known i := by
  simp only [dispatch_eq hknown]
  rw [MatchStmt.Reachable]
  cases m.tableArm u known with
  | none => exact exists_firstArm_iff hself hb
  | some arm =>
    obtain ⟨w, -⟩ := H.unlike u
    exact ⟨fun ⟨_, h⟩ => h, fun h => ⟨onlyIn i u w, h⟩⟩

end Reaches

/-! ## 3. When the sets hold what reaches the arms -/

section Sound

variable {H : Variants}

-- what is matched when the variable holds `v`
def MatchSubject.value (s : MatchSubject) (v : H.Value) : H.Value :=
  match s with
  | plain _ => v
  | typeof => H.literal (.integer (Int64.ofNat (H.type v)))

/-- The variable may hold `v`: a value of its declared types, and of the recorded type if there is
one. -/
structure MatchSubject.Admits (declared : Finset VariantType) (s : MatchSubject) (v : H.Value) :
    Prop where
  declared : H.type v ∈ declared
  recorded : ∀ t, s = plain (some t) → H.type v = t

/-- The set of an arm allows the type of every value that the code can be running the arm with. -/
def MatchStmt.NarrowingSound (H : Variants) (declared : Finset VariantType) (s : MatchSubject)
    (m : MatchStmt) : Prop :=
  ∀ v : H.Value, s.Admits declared v → ∀ (ρ : MatchRun H) (i : Nat) (set : Finset VariantType),
    m.RunsArms s.known ρ (s.value v) [i] → (m.armSets declared s)[i]? = some set → Allows set (H.type v)

/-- What the patterns say about the values that come to the arms. -/
structure MatchStmt.PatternsSeparate (H : Variants) (declared : Finset VariantType)
    (s : MatchSubject) (m : MatchStmt) : Prop where
  /-- Where all patterns of an arm have types and one of these is declared, no value of another type
  comes to the arm. -/
  alike : ∀ i b, m.branches[i]? = some b → (∃ type ∈ declared, b.Carries s type) →
    ∀ v : H.Value, s.Admits declared v → m.Reachable (s.value v) s.known i → b.Carries s (H.type v)
  /-- A value whose type an arm carries does not come to a later catch-all arm, unless the arms
  before carry every declared type. -/
  caught : ∀ i b, m.branches[i]? = some b → b.isCatchAll = true →
    (∃ type ∈ declared, ¬CarriedBefore s m.branches i type) →
    ∀ v : H.Value, s.Admits declared v → m.Reachable (s.value v) s.known i →
      ¬CarriedBefore s m.branches i (H.type v)

variable {declared : Finset VariantType} {s : MatchSubject} {m : MatchStmt} {b : MatchBranch}
  {i : Nat} {v : H.Value}

theorem MatchSubject.Admits.known (h : s.Admits declared v) :
    s.known = true → ∃ n, H.toInt (s.value v) = some n := by
  intro hknown
  cases s with
  | plain recorded => exact H.type_int v (h.recorded .int (congrArg _ (of_decide_eq_true hknown)))
  | typeof => exact ⟨_, (H.toInt_iff _ _).mpr rfl⟩

-- an arm whose set says something can be entered exactly when it is reachable
theorem exists_runsArms_iff (hv : s.Admits declared v) (hb : m.branches[i]? = some b)
    (hset : b.isCatchAll = true ∨ ∃ type, b.Carries s type) :
    (∃ ρ : MatchRun H, m.RunsArms s.known ρ (s.value v) [i]) ↔
      m.Reachable (s.value v) s.known i := by
  have hself : (∀ folded engine id, .value (.expression folded engine (.atRun id)) ∉ b.patterns) ∨
      H.equal (s.value v) (s.value v) = true := by
    cases s with
    | plain recorded =>
      refine .inl fun folded engine id hmem => ?_
      rcases hset with hcatch | ⟨type, hcarries⟩
      · rw [(patterns_of_catchAll hcatch).2] at hmem
        cases List.mem_singleton.mp hmem
      · cases hcarries.1 _ hmem
    | typeof => exact .inr ((H.equal_int _ _).trans (decide_eq_true rfl))
  rw [← exists_dispatch_iff hself hv.known hb]
  simp only [runsArms_iff]
  refine exists_congr fun ρ => ?_
  cases m.dispatch ρ (s.value v) s.known <;> simp [eq_comm]

theorem mem_stmtSets (hb : m.branches[i]? = some b) {set : Finset VariantType}
    (hset : (m.armSets declared s)[i]? = some set) (type : VariantType) :
    type ∈ set ↔ type ∈ declared ∧
      if b.isCatchAll then ¬CarriedBefore s m.branches i type else b.Carries s type := by
  rw [mem_armSets (Finset.Subset.refl declared) hb hset]
  split <;> rfl

end Sound

/-! ## 4. An arm for one integer -/

def intOrString : Finset VariantType := {.int, .string}

-- `match x:` with the arms 1 and _
def oneInteger : MatchStmt where
  branches := [literalArm (.integer 1), wildcardArm]
  isSwitch := false

end Codegen
