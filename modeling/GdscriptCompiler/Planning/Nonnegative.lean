import GdscriptCompiler.Planning.Constants
import Mathlib.Data.List.Perm.Subperm

/-! # Nonnegative — `plan_nonnegative` -/

namespace Plan

open Ir Lib

/-! ## 1. The plan -/

def knownNonnegative (known : List Int) : Option IRValue → Bool
  | some (.imm v) => 0 ≤ v
  | some (.reg r) => r ∈ known
  | _ => false

def resultNonnegative (known : List Int) (instr : IRInstruction) : Bool :=
  match instr.opcode with
  | .loadImm => instr.operands.length ≥ 2 && knownNonnegative known instr.operands[1]?
  | .bitAnd =>
    instr.typeHint = Variant.int && instr.operands.length ≥ 3 &&
      (knownNonnegative known instr.operands[1]? || knownNonnegative known instr.operands[2]?)
  | .shr =>
    instr.typeHint = Variant.int && instr.operands.length ≥ 3 && knownNonnegative known
      instr.operands[1]?
  | _ => false

def nonnegativeStep (f : IRFunction) (known : List Int) (instr : IRInstruction) : List Int :=
  let dst := instr.destinationRegister
  if dst < 0 ∨ definitions f dst ≠ 1 ∨ dst ∈ known then known
  else if resultNonnegative known instr then dst :: known
  else known

def nonnegativePass (f : IRFunction) (known : List Int) : Option (List Int) :=
  let known' := f.instructions.foldl (nonnegativeStep f) known
  if known' = known then none else some known'

/-- `plan_nonnegative`: passes until one adds nothing. -/
def planNonnegative (f : IRFunction) : Option (List Int) :=
  rounds (nonnegativePass f) (f.instructions.length + 1) []

/-! ## 2. What the passes keep -/

section Passes

variable {f : IRFunction} {known : List Int} {instr : IRInstruction} {known' : List Int}

theorem knownNonnegative_mono (hsub : ∀ r ∈ known, r ∈ known') {operand : Option IRValue}
    (h : knownNonnegative known operand = true) :
    knownNonnegative known' operand = true := by
  unfold knownNonnegative at h ⊢
  split at h
  · exact h
  · exact decide_eq_true (hsub _ (of_decide_eq_true h))
  · cases h

theorem resultNonnegative_mono (hsub : ∀ r ∈ known, r ∈ known')
    (h : resultNonnegative known instr = true) :
    resultNonnegative known' instr = true := by
  have hmono : ∀ {operand}, knownNonnegative known operand = true →
    knownNonnegative known' operand = true :=
    knownNonnegative_mono hsub
  unfold resultNonnegative at h ⊢
  split at h
  · rw [Bool.and_eq_true] at h ⊢
    exact ⟨h.1, hmono h.2⟩
  · rw [Bool.and_eq_true, Bool.or_eq_true] at h ⊢
    exact ⟨h.1, h.2.imp hmono hmono⟩
  · rw [Bool.and_eq_true] at h ⊢
    exact ⟨h.1, hmono h.2⟩
  · cases h

/-- Each register known has one definition, and that one gives a result known not to be negative. -/
structure Justified (f : IRFunction) (known : List Int) : Prop where
  nodup : known.Nodup
  one : ∀ r ∈ known, 0 ≤ r ∧ definitions f r = 1
  result : ∀ r ∈ known, ∃ instr ∈ f.instructions, instr.destinationRegister = r ∧
    resultNonnegative known instr = true

section

variable (h : Justified f known)
include h

theorem Justified.step (hmem : instr ∈ f.instructions) :
    Justified f (nonnegativeStep f known instr) ∧ known <:+ nonnegativeStep f known instr := by
  unfold nonnegativeStep
  dsimp only
  split
  · exact ⟨h, List.suffix_refl known⟩
  rename_i hnew
  rw [not_or, not_or, not_not] at hnew
  split
  · rename_i hresult
    have hsub : ∀ r ∈ known, r ∈ instr.destinationRegister :: known := fun r hr =>
      List.mem_cons_of_mem _ hr
    refine ⟨⟨List.nodup_cons.mpr ⟨hnew.2.2, h.nodup⟩, ?_, ?_⟩, List.suffix_cons _ _⟩
    · intro r hr
      rcases List.mem_cons.mp hr with rfl | hr
      · exact ⟨Int.not_lt.mp hnew.1, hnew.2.1⟩
      · exact h.one r hr
    · intro r hr
      rcases List.mem_cons.mp hr with rfl | hr
      · exact ⟨instr, hmem, rfl, resultNonnegative_mono hsub hresult⟩
      · obtain ⟨instr', hmem', hdst, hresult'⟩ := h.result r hr
        exact ⟨instr', hmem', hdst, resultNonnegative_mono hsub hresult'⟩
  · exact ⟨h, List.suffix_refl known⟩

theorem Justified.foldl {code : List IRInstruction}
    (hcode : ∀ instr ∈ code, instr ∈ f.instructions) :
    Justified f (code.foldl (nonnegativeStep f) known) ∧
      known <:+ code.foldl (nonnegativeStep f) known := by
  induction code generalizing known with
  | nil => exact ⟨h, List.suffix_refl known⟩
  | cons instr code ih =>
    have hstep := h.step (hcode instr List.mem_cons_self)
    have hrest := ih hstep.1 fun instr' hmem => hcode instr' (List.mem_cons_of_mem _ hmem)
    exact ⟨hrest.1, hstep.2.trans hrest.2⟩

theorem Justified.pass (hpass : nonnegativePass f known = some known') :
    Justified f known' ∧ known.length < known'.length := by
  unfold nonnegativePass at hpass
  dsimp only at hpass
  split at hpass
  · cases hpass
  · rename_i hne
    cases hpass
    have hfold := h.foldl fun _ hmem => hmem
    refine ⟨hfold.1, Nat.lt_of_le_of_ne hfold.2.length_le fun hlen => hne ?_⟩
    exact (hfold.2.eq_of_length hlen).symm

theorem Justified.length_le : known.length ≤ f.instructions.length := by
  have hsub : known ⊆ f.instructions.map IRInstruction.destinationRegister := by
    intro r hr
    obtain ⟨instr, hmem, rfl, -⟩ := h.result r hr
    exact List.mem_map_of_mem hmem
  have hle := (h.nodup.subperm hsub).length_le
  rwa [List.length_map] at hle

end

/-- The passes end, in a set that justifies itself. -/
theorem planNonnegative_spec (f : IRFunction) :
    ∃ known, planNonnegative f = some known ∧ Justified f known := by
  have hstart : Justified f [] := ⟨List.nodup_nil, fun _ hr => absurd hr List.not_mem_nil,
    fun _ hr => absurd hr List.not_mem_nil⟩
  -- every pass that adds something comes closer to the number of instructions
  have hstep : ∀ known known', Justified f known → nonnegativePass f known = some known' →
      Justified f known' ∧
        f.instructions.length - known'.length < f.instructions.length - known.length := by
    intro known known' h hpass
    have hnext := h.pass hpass
    have hle := hnext.1.length_le
    exact ⟨hnext.1, by omega⟩
  obtain ⟨known, hknown, hjustified, -⟩ :=
    exists_rounds_of_rank hstep (k := f.instructions.length + 1) hstart (by omega)
  exact ⟨known, hknown, hjustified⟩

end Passes

/-! ## 3. Masks and shifts -/

variable {a : Word64}

theorem msb_eq_false_iff : a.msb = false ↔ 0 ≤ a.toInt := by
  rw [BitVec.msb_eq_toInt, decide_eq_false_iff_not, Int.not_lt]

theorem toInt_and_nonneg {b : Word64} (h : 0 ≤ a.toInt ∨ 0 ≤ b.toInt) : 0 ≤ (a &&& b).toInt := by
  rw [← msb_eq_false_iff, ← msb_eq_false_iff] at h
  rw [← msb_eq_false_iff, BitVec.msb_and, Bool.and_eq_false_iff]
  exact h

/-- An arithmetic shift keeps the sign bit, whatever the count. -/
theorem toInt_sshiftRight_nonneg (h : 0 ≤ a.toInt) (count : Nat) :
    0 ≤ (a.sshiftRight count).toInt := by
  rw [← msb_eq_false_iff] at h ⊢
  rw [BitVec.msb_sshiftRight]
  exact h

/-! ## 4. Runs with truthful hints -/

variable {Value World : Type} {V : VerifiedFunction} {H : Host Value World}

/-- Along the runs from `start` an operation hinted INT has integer operands, and leaves what its
machine instruction does. -/
structure Truthful (V : VerifiedFunction) (H : Host Value World) (start : Config Value World) :
    Prop where
  distinct : ∀ a b, H.int a = H.int b → a = b
  hinted : ∀ past c instr, Runs V H start past c → V.at? c.pc = some instr →
    instr.typeHint = Variant.int →
    intBinary instr.opcode = true → ∃ a b w, c.values instr = [H.int a, H.int b] ∧
      intRegisters instr.opcode a.toBitVec b.toBitVec = some w ∧
      H.result instr (c.values instr) c.world = H.int (.ofBitVec w)

def Nonnegative (H : Host Value World) (value : Value) : Prop :=
  ∃ v : Int64, value = H.int v ∧ 0 ≤ v.toInt

section Step

variable {start c : Config Value World} {past : List Nat} {instr : IRInstruction}

theorem signature_intBinary {op : Opcode} (h : intBinary op = true) :
    (opcodeInfo op).signature = [.dst, .src, .src] := by
  revert h
  cases op <;> first | exact fun _ => rfl | exact fun h => absurd h (by decide)

theorem written_intBinary (h : intBinary instr.opcode = true) (values : List Value)
    (world : World) :
    H.written instr values world = H.result instr values world := by
  unfold Host.written
  split
  · rename_i hop _
    rw [hop] at h
    cases h
  · rename_i hop
    rw [hop] at h
    cases h
  · rfl

section

variable (htruth : Truthful V H start)
include htruth

theorem Truthful.binary (hrun : Runs V H start past c) (hinstr : V.at? c.pc = some instr)
    (hhint : instr.typeHint = Variant.int) (hop : intBinary instr.opcode = true) :
    ∃ dst lhs rhs a b w, instr.operands = [.reg dst, .reg lhs, .reg rhs] ∧
      instr.collectReadRegisters = [lhs, rhs] ∧
      c.registers lhs = H.int a ∧ c.registers rhs = H.int b ∧
        intRegisters instr.opcode a.toBitVec b.toBitVec = some w ∧
      H.written instr (c.values instr) c.world = H.int (.ofBitVec w) := by
  have hsig : instr.signature = [.dst, .src, .src] := signature_intBinary hop
  obtain ⟨dst, lhs, rhs, hops⟩ := (VerifiedFunction.fits hinstr).dst_src_src hsig
  have hreads : instr.collectReadRegisters = [lhs, rhs] := (collectReadRegisters_eq hsig hops).trans rfl
  obtain ⟨a, b, w, hvalues, hw, hresult⟩ := htruth.hinted past c instr hrun hinstr hhint hop
  rw [← written_intBinary hop] at hresult
  rw [Config.values, hreads, List.map_cons, List.map_cons, List.cons.injEq, List.cons.injEq] at hvalues
  exact ⟨dst, lhs, rhs, a, b, w, hops, hreads, hvalues.1, hvalues.2.1, hw, hresult⟩

theorem Truthful.nonnegative {r : Int} (hvalue : Nonnegative H (c.registers r)) {a : Int64}
    (ha : c.registers r = H.int a) :
    0 ≤ a.toBitVec.toInt := by
  obtain ⟨v, hv, hnonneg⟩ := hvalue
  obtain rfl := htruth.distinct v a (hv.symm.trans ha)
  exact hnonneg

theorem Truthful.written_nonnegative (hrun : Runs V H start past c)
    (hinstr : V.at? c.pc = some instr) {known : List Int}
    (hresult : resultNonnegative known instr = true)
    (hknown : ∀ r ∈ known, r ∈ instr.collectReadRegisters → Nonnegative H (c.registers r)) :
    Nonnegative H (H.written instr (c.values instr) c.world) := by
  unfold resultNonnegative at hresult
  split at hresult
  · rename_i hop
    obtain ⟨dst, v, hops⟩ := (VerifiedFunction.fits hinstr).dst_imm (signature_of hop)
    rw [hops] at hresult
    have hv : 0 ≤ v := of_decide_eq_true ((Bool.and_eq_true _ _).mp hresult).2
    unfold Host.written
    rw [hop, hops]
    exact ⟨v, rfl, Int64.le_iff_toInt_le.mp hv⟩
  · rename_i hop
    rw [Bool.and_eq_true, Bool.and_eq_true, decide_eq_true_eq, Bool.or_eq_true] at hresult
    obtain ⟨dst, lhs, rhs, a, b, w, hops, hreads, hlhs, hrhs, hw, hwritten⟩ :=
      htruth.binary hrun hinstr hresult.1.1 (by rw [hop]; rfl)
    rw [hop] at hw
    obtain rfl := Option.some.inj hw
    refine ⟨_, hwritten, toInt_and_nonneg ?_⟩
    rw [hops] at hresult
    refine hresult.2.imp (fun hmem => htruth.nonnegative ?_ hlhs) fun hmem => htruth.nonnegative ?_ hrhs
    · exact hknown lhs (of_decide_eq_true hmem) (by rw [hreads]; simp)
    · exact hknown rhs (of_decide_eq_true hmem) (by rw [hreads]; simp)
  · rename_i hop
    rw [Bool.and_eq_true, Bool.and_eq_true, decide_eq_true_eq] at hresult
    obtain ⟨dst, lhs, rhs, a, b, w, hops, hreads, hlhs, hrhs, hw, hwritten⟩ :=
      htruth.binary hrun hinstr hresult.1.1 (by rw [hop]; rfl)
    rw [hop] at hw
    obtain rfl := Option.some.inj hw
    refine ⟨_, hwritten, toInt_sshiftRight_nonneg (htruth.nonnegative ?_ hlhs) _⟩
    rw [hops] at hresult
    exact hknown lhs (of_decide_eq_true hresult.2) (by rw [hreads]; simp)
  · cases hresult

end

end Step

section Run

variable {start c : Config Value World} {past : List Nat} {known : List Int} {instr : IRInstruction}

theorem not_bare_of_result (h : resultNonnegative known instr = true) :
    instr.isBareReturn = false := by
  rw [Bool.eq_false_iff]
  intro hbare
  have hop : instr.opcode = .returnOp := of_decide_eq_true ((Bool.and_eq_true _ _).mp hbare).1
  rw [resultNonnegative, hop] at h
  cases h

theorem written_of_known (hjustified : Justified V.function known) (hrun : Runs V H start past c)
    (hinstr : V.at? c.pc = some instr) (hbare : instr.isBareReturn = false) {r : Int}
    (hr : r ∈ known) (hread : r ∈ instr.collectReadRegisters) :
    V.WrittenIn past r := by
  have hlt : c.pc < V.function.instructions.length := (List.getElem?_eq_some_iff.mp hinstr).1
  obtain ⟨load, hmem, hdst, -⟩ := hjustified.result r hr
  obtain ⟨i, hi⟩ := List.mem_iff_getElem?.mp hmem
  have hparam := not_parameter (hjustified.one r hr).2 hi hdst
  exact ((hrun.reached hlt).read_written hinstr hbare hread).resolve_right hparam

theorem Truthful.known_nonnegative (htruth : Truthful V H start)
    (hjustified : Justified V.function known) (hrun : Runs V H start past c) {r : Int}
    (hr : r ∈ known) (hw : V.WrittenIn past r) :
    Nonnegative H (c.registers r) := by
  refine hrun.holds (S := fun r => r ∈ known) (P := fun _ value => Nonnegative H value) ?_ hr hw
  intro past c instr hrun hinstr hsofar hdst
  obtain ⟨instr', hmem, hdst', hresult⟩ := hjustified.result _ hdst
  obtain ⟨i, hi⟩ := List.mem_iff_getElem?.mp hmem
  -- the write is the definition that justifies the register
  have hpc := definition_unique (hjustified.one _ hdst).2 hi hdst' hinstr rfl
  rw [← hpc, show V.function.instructions[c.pc]? = some instr from hinstr] at hi
  cases hi
  refine htruth.written_nonnegative hrun hinstr hresult fun s hs hread => ?_
  exact hsofar s hs (written_of_known hjustified hrun hinstr (not_bare_of_result hresult) hs hread)

end Run

/-- A run whose INT hints tell the truth, with one of its configurations. -/
structure TruthfulPoint (V : VerifiedFunction) (H : Host Value World) extends Point V H where
  truthful : Truthful V H start

/-- The passes of `plan_nonnegative` end, and every operand in their result holds an integer that is
not negative. -/
structure NonnegativeSound (V : VerifiedFunction) (H : Host Value World) (known : List Int) :
    Prop where
  planned : planNonnegative V.function = some known
  operand : ∀ (p : TruthfulPoint V H) (instr : IRInstruction) (index : Nat) (r : Int),
    V.at? p.config.pc = some instr → operandRegister instr index = some r →
      instr.readsOperand index = true →
    r ∈ known → Nonnegative H (p.config.registers r)
  -- the implicit operand of a bare RETURN is not checked by the verifier
  returned : ∀ (p : TruthfulPoint V H), 0 ∈ known → V.WrittenIn p.past 0 →
    Nonnegative H (p.config.registers 0)

theorem planNonnegative_sound (V : VerifiedFunction) (H : Host Value World) :
    ∃ known, NonnegativeSound V H known := by
  obtain ⟨known, hplanned, hjustified⟩ := planNonnegative_spec V.function
  refine ⟨known, hplanned, fun p instr index r hinstr hreg hreads hr => ?_, fun p hr hw => ?_⟩
  · have hw := written_of_known hjustified p.runs hinstr (not_bare hreg) hr (mem_reads hreg hreads)
    exact p.truthful.known_nonnegative hjustified p.runs hr hw
  · exact p.truthful.known_nonnegative hjustified p.runs hr hw

/-- In the loop the mask is known not to be negative, and then what is masked. -/
theorem planNonnegative_sound_loop :
    planNonnegative maskLoopFunction = some [3, 2] ∧
      NonnegativeSound maskLoop takingHost [3, 2] := by
  have hplan : planNonnegative maskLoopFunction = some [3, 2] := by decide +kernel
  obtain ⟨known, hsound⟩ := planNonnegative_sound maskLoop takingHost
  obtain rfl := Option.some.inj (hplan.symm.trans hsound.planned)
  exact ⟨hplan, hsound⟩

/-- r0 is known not to be negative, and yet the RETURN reads a slot that was never written. -/
theorem skipped_nonnegative :
    planNonnegative skippedFunction = some [0] ∧ ∃ p : TruthfulPoint skipped takingHost,
      (skipped.at? p.config.pc).map IRInstruction.collectReadRegisters = some [0] ∧
        p.config.registers 0 = none := by
  obtain ⟨past, c, hruns, hread⟩ := skipped_run
  have htruth : Truthful skipped takingHost (entry (fun _ => none) ()) := by
    refine ⟨fun a b h => Option.some.inj h, fun past c instr _ hinstr hhint => ?_⟩
    -- no instruction has a hint
    have hnone : ∀ instr ∈ skippedFunction.instructions, instr.typeHint ≠ Variant.int := by
      decide +kernel
    exact absurd hhint (hnone instr (List.mem_of_getElem? hinstr))
  exact ⟨by decide +kernel, ⟨⟨_, past, c, hruns⟩, htruth⟩, hread⟩

end Plan
