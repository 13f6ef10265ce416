import GdscriptCompiler.Lib.LabelledCode
import GdscriptCompiler.Lib.Selection

/-!
# Pieces — rewriting labelled code piece by piece

Old and new code are cut into the same number of pieces, a label standing alone in both.
-/

namespace Lib

structure Piece (I : Type) where
  old : List I
  new : List I

namespace Piece

variable {I F L O V : Type}

def oldCode (pieces : List (Piece I)) : List I := (pieces.map old).flatten

def newCode (pieces : List (Piece I)) : List I := (pieces.map new).flatten

@[simp] theorem oldCode_nil : oldCode ([] : List (Piece I)) = [] := rfl

@[simp] theorem newCode_nil : newCode ([] : List (Piece I)) = [] := rfl

@[simp] theorem oldCode_cons (p : Piece I) (ps : List (Piece I)) :
    oldCode (p :: ps) = p.old ++ oldCode ps :=
  rfl

@[simp] theorem newCode_cons (p : Piece I) (ps : List (Piece I)) :
    newCode (p :: ps) = p.new ++ newCode ps :=
  rfl

@[simp] theorem oldCode_append (ps qs : List (Piece I)) :
    oldCode (ps ++ qs) = oldCode ps ++ oldCode qs := by
  simp [oldCode]

@[simp] theorem newCode_append (ps qs : List (Piece I)) :
    newCode (ps ++ qs) = newCode ps ++ newCode qs := by
  simp [newCode]

/-- A piece is a label that stays, or holds none. -/
inductive Labelled (labelOf : I → Option L) : Piece I → Prop
  | label {i : I} {l : L} (h : labelOf i = some l) : Labelled labelOf ⟨[i], [i]⟩
  | plain {p : Piece I} (hold : ∀ i ∈ p.old, labelOf i = none) (hnew : ∀ i ∈ p.new, labelOf i = none) :
      Labelled labelOf p

def IsLabel (labelOf : I → Option L) (l : L) (p : Piece I) : Prop :=
  ∃ i, p.old = [i] ∧ labelOf i = some l

theorem labels_eq {labelOf : I → Option L} {pieces : List (Piece I)}
    (h : ∀ p ∈ pieces, Labelled labelOf p) :
    (newCode pieces).filterMap labelOf = (oldCode pieces).filterMap labelOf := by
  induction pieces with
  | nil => rfl
  | cons p ps ih =>
    rw [newCode_cons, oldCode_cons, List.filterMap_append, List.filterMap_append,
      ih fun q hq => h q (List.mem_cons_of_mem _ hq)]
    congr 1
    cases h p (List.mem_cons_self ..) with
    | label _ => rfl
    | plain hold hnew =>
      rw [List.filterMap_eq_nil_iff.mpr hold, List.filterMap_eq_nil_iff.mpr hnew]

variable [DecidableEq L]

theorem findIdx?_eq_none {labelOf : I → Option L} {code : List I} (h : ∀ i ∈ code, labelOf i = none)
    (l : L) :
    (code.findIdx? fun i => labelOf i = some l) = none := by
  rw [List.findIdx?_eq_none_iff]
  intro i hi
  simp [h i hi]

theorem target_pieces {M M' : Machine I F L O V} (hM : M'.labelOf = M.labelOf)
    {pieces : List (Piece I)} (h : ∀ p ∈ pieces, Labelled M.labelOf p) {l : L} {t : Nat}
    (ht : M.target (oldCode pieces) l = some t) :
    ∃ pre p post, pieces = pre ++ p :: post ∧ IsLabel M.labelOf l p ∧
      (∀ q ∈ pre, ¬ IsLabel M.labelOf l q) ∧ t = (oldCode pre).length ∧
      M'.target (newCode pieces) l = some (newCode pre).length := by
  induction pieces generalizing t with
  | nil => cases ht
  | cons p ps ih =>
    have ih := @ih (fun q hq => h q (List.mem_cons_of_mem _ hq))
    have hlater (hp : (p.old.findIdx? fun i => M.labelOf i = some l) = none)
        (hp' : (p.new.findIdx? fun i => M.labelOf i = some l) = none) :
        ∃ pre q post, p :: ps = pre ++ q :: post ∧ IsLabel M.labelOf l q ∧
          (∀ q ∈ pre, ¬ IsLabel M.labelOf l q) ∧ t = (oldCode pre).length ∧
          M'.target (newCode (p :: ps)) l = some (newCode pre).length := by
      rw [Machine.target, oldCode_cons, List.findIdx?_append, hp, Option.none_or] at ht
      obtain ⟨t', ht', rfl⟩ := Option.map_eq_some_iff.mp ht
      obtain ⟨pre, q, post, rfl, hq, hfirst, rfl, hnew⟩ := ih ht'
      refine ⟨p :: pre, q, post, rfl, hq, ?_, by simp [Nat.add_comm], ?_⟩
      · refine List.forall_mem_cons.mpr ⟨?_, hfirst⟩
        rintro ⟨i, hi, hlabel⟩
        rw [hi] at hp
        simp [List.findIdx?_cons, hlabel] at hp
      · rw [Machine.target, hM] at hnew ⊢
        rw [newCode_cons, List.findIdx?_append, hp', Option.none_or, hnew]
        simp [Nat.add_comm]
    cases h p (List.mem_cons_self ..) with
    | plain hold hnew => exact hlater (findIdx?_eq_none hold l) (findIdx?_eq_none hnew l)
    | @label i l' hi =>
      by_cases hl : l' = l
      · subst hl
        refine ⟨[], ⟨[i], [i]⟩, ps, rfl, ⟨i, rfl, hi⟩, nofun, ?_, ?_⟩
        · rw [Machine.target, oldCode_cons, List.findIdx?_append] at ht
          simpa [List.findIdx?_cons, hi] using ht.symm
        · rw [Machine.target, hM, newCode_cons, List.findIdx?_append]
          simp [List.findIdx?_cons, hi]
      · have hnone : ([i].findIdx? fun i => M.labelOf i = some l) = none := by
          simp [List.findIdx?_cons, hi, hl]
        exact hlater hnone hnone

end Piece

open Piece

variable {I F L O V : Type} [DecidableEq L]

/-- What two frames satisfy where a piece lands. -/
def Landed (labelOf : I → Option L) (pieces : List (Piece I)) (Q : Nat → F → F → Prop)
    (Done : F → F → Prop) (k : Nat) (frame frame' : F) : Exit L V → Prop
  | .next => Q (k + 1) frame frame'
  | .goto l => ∀ j p, pieces[j]? = some p → IsLabel labelOf l p → Q j frame frame'
  | .ret _ => Done frame frame'

/-- From the start of piece `j` on, `s` labels in a row that are executed without effect. -/
def Skips (M : Machine I F L O V) (pieces : List (Piece I)) (frame : F) (j s : Nat) : Prop :=
  ∀ i < s, ∃ q instr, pieces[j + i]? = some q ∧ q.new = [instr] ∧
    M.exec instr frame = some ([], frame, .next)

/-- A new piece leaves as the old one does; where that goes to a label that follows, it may fall
through to it instead. -/
inductive Exits (M : Machine I F L O V) (pieces : List (Piece I)) (k : Nat) (code : List I)
    (frame : F) : Nat → List O → F → Exit L V → Prop
  | same {n : Nat} {os : List O} {frame₁ : F} {flow : Exit L V}
      (h : M.block code frame = some (n, os, frame₁, flow)) : Exits M pieces k code frame n os
      frame₁ flow
  | falls {n s : Nat} {os : List O} {frame₁ : F} {l : L} {q : Piece I}
      (h : M.block code frame = some (n, os, frame₁, .next)) (hskips : Skips M pieces frame₁ (k + 1) s)
      (hq : pieces[k + 1 + s]? = some q) (hlabel : IsLabel M.labelOf l q)
      (hfirst : ∀ j q, j < k + 1 + s → pieces[j]? = some q → ¬ IsLabel M.labelOf l q) :
      Exits M pieces k code frame (n + s) os frame₁ (.goto l)

/-- `Q k` relates the frames before piece `k`; `bounded` asks that no piece gets longer to run. -/
structure Simulation (M M' : Machine I F L O V) (pieces : List (Piece I)) (Q : Nat → F → F → Prop)
    (Done : F → F → Prop) (bounded : Prop) : Prop where
  labelOf_eq : M'.labelOf = M.labelOf
  labelled : ∀ p ∈ pieces, Labelled M.labelOf p
  piece : ∀ {k : Nat} {p : Piece I}, pieces[k]? = some p →
    ∀ {frame frame' : F} {n : Nat} {os : List O} {frame₁ : F} {flow : Exit L V}, Q k frame frame' →
      M.block p.old frame = some (n, os, frame₁, flow) →
      ∃ n' frame₁', Exits M' pieces k p.new frame' n' os frame₁' flow ∧ (bounded → n' ≤ n) ∧
        Landed M.labelOf pieces Q Done k frame₁ frame₁' flow
  finish : ∀ {frame frame' : F}, Q pieces.length frame frame' → Done frame frame'

namespace Simulation

variable {M M' : Machine I F L O V} {pieces : List (Piece I)} {Q : Nat → F → F → Prop}
  {Done : F → F → Prop} {bounded : Prop}

/-- The completed runs of both codes from frames related at the start of a piece. -/
def Matches (M' : Machine I F L O V) (pieces : List (Piece I)) (Done : F → F → Prop)
    (bounded : Prop) (start : Nat) (frame' : F) (n : Nat) (os : List O) (c : Config F V) : Prop :=
  ∃ n' c', M'.Steps (newCode pieces) ⟨start, frame', none⟩ n' os c' ∧
    Machine.Halted (newCode pieces) c' ∧ c'.result = c.result ∧ Done c.frame c'.frame ∧
      (bounded → n' ≤ n)

theorem steps_of_skips {frame : F} {j s : Nat} (h : Skips M' pieces frame j s) :
    M'.Steps (newCode pieces) ⟨(newCode (pieces.take j)).length, frame, none⟩ s []
      ⟨(newCode (pieces.take (j + s))).length, frame, none⟩ := by
  induction s generalizing j with
  | zero => exact .refl _
  | succ s ih =>
    obtain ⟨q, instr, hq, hnew, hexec⟩ := h 0 (Nat.succ_pos s)
    have htake : pieces.take (j + 1) = pieces.take j ++ [q] := by
      rw [List.take_add_one, show pieces[j]? = some q from hq]
      rfl
    have hcode : newCode pieces = newCode (pieces.take j) ++ [instr] ++
      newCode (pieces.drop (j + 1)) := by
      conv_lhs => rw [← List.take_append_drop (j + 1) pieces, newCode_append, htake]
      rw [newCode_append, newCode_cons, hnew, newCode_nil, List.append_nil]
    have hstep := Machine.steps_of_block (M := M') hcode (Machine.block_single hexec) rfl
    have hrest := ih (j := j + 1) fun i hi => by
      rw [Nat.add_right_comm]
      exact h (i + 1) (by omega)
    rw [show j + 1 + s = j + (s + 1) by omega, htake, newCode_append, List.length_append, newCode_cons,
      hnew, newCode_nil, List.append_nil] at hrest
    simpa [Nat.add_comm] using hstep.trans hrest

theorem completes_from (S : Simulation M M' pieces Q Done bounded) (n : Nat) :
    ∀ (pre rest : List (Piece I)) (frame frame' : F) (os : List O) (c : Config F V),
      pieces = pre ++ rest → Q pre.length frame frame' →
      M.Steps (oldCode pieces) ⟨(oldCode pre).length, frame, none⟩ n os c →
        Machine.Halted (oldCode pieces) c →
      Matches M' pieces Done bounded (newCode pre).length frame' n os c := by
  induction n using Nat.strongRecOn with
  | ind n outer =>
    intro pre rest
    induction rest generalizing pre with
    | nil =>
      -- past the last piece both codes have ended
      intro frame frame' os c hsplit hQ hsteps _
      rw [List.append_nil] at hsplit
      subst hsplit
      obtain ⟨rfl, rfl, rfl⟩ := hsteps.eq_of_halted (.inr (Nat.le_refl _))
      exact ⟨0, _, .refl _, .inr (Nat.le_refl _), rfl, S.finish hQ, fun _ => Nat.le_refl _⟩
    | cons p rest inner =>
      intro frame frame' os c hsplit hQ hsteps hhalted
      have hold : oldCode pieces = oldCode pre ++ p.old ++ oldCode rest := by simp [hsplit]
      have hnew : newCode pieces = newCode pre ++ p.new ++ newCode rest := by simp [hsplit]
      obtain ⟨m, os₁, frame₁, flow, k, os₂, c₁, hblock, hland, hrest, rfl, rfl⟩ :=
        Machine.block_of_steps hold hsteps hhalted
      have hk : pieces[pre.length]? = some p := by simp [hsplit]
      obtain ⟨m', frame₁', hexits, hm, hlanded⟩ := S.piece hk hQ hblock
      -- the run of the new piece, then the rest
      have hgo (next : Nat) (hrun : M'.Steps (newCode pieces) ⟨(newCode pre).length, frame', none⟩ m' os₁
          ⟨next, frame₁', none⟩) (h : Matches M' pieces Done bounded next frame₁' k os₂ c) :
          Matches M' pieces Done bounded (newCode pre).length frame' (m + k) (os₁ ++ os₂) c := by
        obtain ⟨n', c', hsteps', hhalted', hresult, hdone, hn⟩ := h
        exact ⟨m' + n', c', hrun.trans hsteps', hhalted', hresult, hdone,
          fun hb => Nat.add_le_add (hm hb) (hn hb)⟩
      cases flow with
      | next =>
        obtain ⟨hblock'⟩ := hexits
        cases hland
        have hpre : pieces = pre ++ [p] ++ rest := by simp [hsplit]
        have hQ' : Q (pre ++ [p]).length frame₁ frame₁' := by simpa [Landed] using hlanded
        have hsteps₁ : M.Steps (oldCode pieces) ⟨(oldCode (pre ++ [p])).length, frame₁, none⟩ k os₂
            c := by simpa using hrest
        refine hgo (newCode (pre ++ [p])).length
          (Machine.steps_of_block hnew hblock' (by simp [Machine.lands])) ?_
        rcases Nat.eq_zero_or_pos m with rfl | hpos
        · rw [Nat.zero_add] at outer inner
          exact inner (pre ++ [p]) frame₁ frame₁' os₂ c hpre hQ' hsteps₁ hhalted
        · exact outer k (by omega) (pre ++ [p]) rest frame₁ frame₁' os₂ c hpre hQ' hsteps₁ hhalted
      | goto l =>
        obtain ⟨t, ht, rfl⟩ := Option.map_eq_some_iff.mp hland
        obtain ⟨pre', p', post', hsplit', hlabel, hfirst', rfl, ht'⟩ :=
          target_pieces S.labelOf_eq S.labelled ht
        have hQ' := hlanded pre'.length p' (by simp [hsplit']) hlabel
        have hpos := Machine.block_pos hblock (by simp)
        refine hgo (newCode pre').length ?_ ?_
        · cases hexits with
          | same hblock' => exact Machine.steps_of_block hnew hblock' (by simp [Machine.lands, ht'])
          | @falls _ s _ _ _ q hblock' hskips hq hlabel' hfirst =>
            -- the label reached by falling through is the one the old code goes to
            rw [S.labelOf_eq] at hlabel' hfirst
            have hlen : pre.length + 1 + s = pre'.length := by
              rcases Nat.lt_trichotomy (pre.length + 1 + s) pre'.length with hlt | heq | hgt
              · rw [hsplit', List.getElem?_append_left hlt] at hq
                exact absurd hlabel' (hfirst' q (List.mem_of_getElem? hq))
              · exact heq
              · exact absurd hlabel (hfirst pre'.length p' hgt (by simp [hsplit']))
            have htake : pieces.take (pre.length + 1) = pre ++ [p] := by
              rw [List.take_add_one, hk, hsplit, List.take_left]
              rfl
            have hskip := steps_of_skips hskips
            rw [hlen, htake, hsplit', List.take_left, ← hsplit'] at hskip
            have hrun := Machine.steps_of_block hnew hblock' rfl
            rw [show (newCode pre).length + p.new.length = (newCode (pre ++ [p])).length by simp] at hrun
            simpa using hrun.trans hskip
        exact outer k (by omega) pre' (p' :: post') frame₁ frame₁' os₂ c hsplit' hQ' hrest hhalted
      | ret v =>
        obtain ⟨hblock'⟩ := hexits
        cases hland
        obtain ⟨rfl, rfl, rfl⟩ := hrest.eq_of_halted (.inl rfl)
        refine ⟨m', ⟨0, frame₁', some v⟩, ?_, .inl rfl, rfl, hlanded, hm⟩
        rw [List.append_nil]
        exact Machine.steps_of_block hnew hblock' rfl

theorem completes (S : Simulation M M' pieces Q Done bounded) {frame frame' : F}
    (hQ : Q 0 frame frame') {n : Nat} {os : List O} {c : Config F V}
    (hsteps : M.Steps (oldCode pieces) ⟨0, frame, none⟩ n os c)
    (hhalted : Machine.Halted (oldCode pieces) c) :
    Matches M' pieces Done bounded 0 frame' n os c :=
  S.completes_from n [] pieces frame frame' os c rfl hQ hsteps hhalted

end Simulation

/-! ## Scanning -/

section Scan

variable {S : Type} (step : S → I → S × I)

/-- Rewriting from the first instruction to the last, with a state that is carried along. -/
def scan : S → List I → List I
  | _, [] => []
  | s, i :: rest => (step s i).2 :: scan (step s i).1 rest

/-- The state the scan comes to the `k`-th instruction with. -/
def scanned (s : S) (code : List I) (k : Nat) : S := (code.take k).foldl (fun s i => (step s i).1) s

theorem scanned_succ {s : S} {code : List I} {k : Nat} {i : I} (hi : code[k]? = some i) :
    scanned step s code (k + 1) = (step (scanned step s code k) i).1 := by
  unfold scanned
  rw [List.take_add_one, hi, List.foldl_append]
  rfl

theorem scan_eq (s : S) (code : List I) :
    scan step s code = code.mapIdx fun k i => (step (scanned step s code k) i).2 := by
  induction code generalizing s with
  | nil => rfl
  | cons i rest ih => rw [scan, ih, List.mapIdx_cons]; rfl

theorem scanned_invariant {Inv : S → Prop} {s : S} {code : List I} (hs : Inv s)
    (hstep : ∀ s, ∀ i ∈ code, Inv s → Inv (step s i).1) (k : Nat) :
    Inv (scanned step s code k) := by
  induction k with
  | zero => exact hs
  | succ k ih =>
    cases hi : code[k]? with
    | none =>
      have hlen := List.getElem?_eq_none_iff.mp hi
      unfold scanned at ih ⊢
      rw [List.take_of_length_le hlen] at ih
      rw [List.take_of_length_le (Nat.le_succ_of_le hlen)]
      exact ih
    | some i =>
      rw [scanned_succ step hi]
      exact hstep _ i (List.mem_of_getElem? hi) ih

theorem scan_scan {P : S → Prop}
    (hstep : ∀ s i, P s → step s (step s i).2 = step s i ∧ P (step s i).1) {s : S} (hs : P s)
    (code : List I) :
    scan step s (scan step s code) = scan step s code := by
  induction code generalizing s with
  | nil => rfl
  | cons i rest ih =>
    obtain ⟨hagain, hinv⟩ := hstep s i hs
    rw [scan, scan, hagain, ih hinv]

end Scan

/-! ## Rewriting instruction by instruction -/

-- each instruction may become others, depending on its place
def expandPieces (g : Nat → I → List I) (code : List I) : List (Piece I) :=
  code.mapIdx fun k i => ⟨[i], g k i⟩

section Expand

variable {g : Nat → I → List I} {code : List I}

theorem expandPieces_cons (g : Nat → I → List I) (i : I) (code : List I) :
    expandPieces g (i :: code) = ⟨[i], g 0 i⟩ :: expandPieces (fun k => g (k + 1)) code := by
  simp [expandPieces, List.mapIdx_cons]

theorem oldCode_expandPieces (g : Nat → I → List I) (code : List I) :
    oldCode (expandPieces g code) = code := by
  induction code generalizing g with
  | nil => rfl
  | cons i code ih => simp [expandPieces_cons, ih]

theorem newCode_expandPieces (g : Nat → I → List I) (code : List I) :
    newCode (expandPieces g code) = (code.mapIdx g).flatten := by
  induction code generalizing g with
  | nil => rfl
  | cons i code ih => simp [expandPieces_cons, ih, List.mapIdx_cons]

theorem newCode_expandPieces_one (h : Nat → I → I) (code : List I) :
    newCode (expandPieces (fun k i => [h k i]) code) = code.mapIdx h := by
  rw [newCode_expandPieces, List.mapIdx_eq_zipIdx_map, List.mapIdx_eq_zipIdx_map, ← List.flatMap_def,
    ← List.flatMap_pure_eq_map]
  rfl

theorem newCode_expandPieces_select (keep : Nat → Bool) (code : List I) :
    newCode (expandPieces (fun k i => if keep k then [i] else []) code) = select keep code := by
  rw [newCode_expandPieces, List.mapIdx_eq_zipIdx_map, ← List.flatMap_def]
  unfold select
  induction code.zipIdx with
  | nil => rfl
  | cons p rest ih =>
    rw [List.flatMap_cons, List.filter_cons, ih]
    by_cases hkeep : keep p.2 = true
    · simp [hkeep]
    · simp [hkeep]

theorem getElem?_expandPieces {k : Nat} {p : Piece I} (h : (expandPieces g code)[k]? = some p) :
    ∃ i, code[k]? = some i ∧ p = ⟨[i], g k i⟩ := by
  unfold expandPieces at h
  rw [List.getElem?_mapIdx] at h
  obtain ⟨i, hi, rfl⟩ := Option.map_eq_some_iff.mp h
  exact ⟨i, hi, rfl⟩

/-- What holds of a frame where an instruction lands. -/
def LandedAt (labelOf : I → Option L) (code : List I) (Inv : Nat → F → Prop) (k : Nat) (frame : F) :
    Exit L V → Prop
  | .next => Inv (k + 1) frame
  | .goto l => ∀ j i, code[j]? = some i → labelOf i = some l → Inv j frame
  | .ret _ => True

theorem Machine.Steps.invariant {M : Machine I F L O V} {Inv : Nat → F → Prop}
    (hexec : ∀ k i, code[k]? = some i → ∀ frame o frame₁ flow, Inv k frame →
      M.exec i frame = some (o, frame₁, flow) → LandedAt M.labelOf code Inv k frame₁ flow)
    {c c' : Config F V} {n : Nat} {os : List O} (h : M.Steps code c n os c')
    (hc : c.result = none → Inv c.pc c.frame) (hc' : c'.result = none) :
    Inv c'.pc c'.frame := by
  induction h with
  | refl => exact hc hc'
  | @head c c₁ _ o os n hstep _ ih =>
    refine ih (fun hc₁ => ?_) hc'
    obtain ⟨pc, frame, result⟩ := c
    cases result with
    | some v => rw [Machine.step_of_halted (.inl rfl)] at hstep; cases hstep
    | none =>
      cases hi : code[pc]? with
      | none =>
        rw [Machine.step_of_halted (.inr (List.getElem?_eq_none_iff.mp hi))] at hstep; cases hstep
      | some i =>
        rw [Machine.step_at hi] at hstep
        obtain ⟨⟨o₁, frame₁, flow⟩, hrun, hstep⟩ := Option.bind_eq_some_iff.mp hstep
        obtain ⟨c₂, hlands, heq⟩ := Option.map_eq_some_iff.mp hstep
        cases heq
        have hlanded := hexec pc i hi frame o frame₁ flow (hc rfl) hrun
        cases flow with
        | next => cases hlands; exact hlanded
        | ret v => cases hlands; cases hc₁
        | goto l =>
          obtain ⟨t, ht, rfl⟩ := Option.map_eq_some_iff.mp hlands
          obtain ⟨hlt, hlabel, -⟩ := List.findIdx?_eq_some_iff_getElem.mp ht
          exact hlanded t _ (List.getElem?_eq_getElem hlt) (of_decide_eq_true hlabel)

/-- A run from `start` arrives at instruction `k` with this frame. -/
def Machine.Arrives (M : Machine I F L O V) (code : List I) (start : F) (k : Nat) (frame : F) :
    Prop :=
  ∃ n os, M.Steps code ⟨0, start, none⟩ n os ⟨k, frame, none⟩

theorem Machine.Arrives.landedAt {M : Machine I F L O V} {start : F}
    (hunique : ∀ (l : L) (j j' : Nat) i i', code[j]? = some i → code[j']? = some i' →
        M.labelOf i = some l → M.labelOf i' = some l → j = j') {k : Nat} {i : I} {frame frame₁ : F}
    {o : List O} {flow : Exit L V} (h : M.Arrives code start k frame) (hi : code[k]? = some i)
    (hexec : M.exec i frame = some (o, frame₁, flow)) :
    LandedAt M.labelOf code (M.Arrives code start) k frame₁ flow := by
  obtain ⟨n, os, hsteps⟩ := h
  have hgo {t : Nat} (hlands : M.lands code (k + 1) frame₁ flow = some ⟨t, frame₁, none⟩) :
      M.Arrives code start t frame₁ := by
    have hstep := Machine.step_at (M := M) hi frame
    rw [hexec, Option.bind_some] at hstep
    dsimp only at hstep
    rw [hlands] at hstep
    exact ⟨_, _, hsteps.trans (.head hstep (.refl _))⟩
  cases flow with
  | next => exact hgo rfl
  | ret v => trivial
  | goto l =>
    intro j i' hi' hlabel
    refine hgo ?_
    cases ht : M.target code l with
    | none => exact absurd hlabel (of_decide_eq_false (List.findIdx?_eq_none_iff.mp ht i'
                (List.mem_of_getElem? hi')))
    | some t =>
      obtain ⟨hlt, hl, -⟩ := List.findIdx?_eq_some_iff_getElem.mp ht
      rw [Machine.lands, ht, hunique l t j _ i' (List.getElem?_eq_getElem hlt) hi'
        (of_decide_eq_true hl) hlabel]
      rfl

omit [DecidableEq L] in
/-- Instructions that become code which does the same, wherever an invariant of the old code holds.
-/
theorem Simulation.ofExpand {M : Machine I F L O V} {Inv : Nat → F → Prop}
    (hkeep : ∀ k i l, code[k]? = some i → M.labelOf i = some l → g k i = [i])
    (hplain : ∀ k i, code[k]? = some i → M.labelOf i = none → ∀ i' ∈ g k i, M.labelOf i' = none)
    (hexec : ∀ k i, code[k]? = some i → ∀ frame o frame₁ flow, Inv k frame →
        M.exec i frame = some (o, frame₁, flow) →
      (∃ n, n ≤ 1 ∧ M.block (g k i) frame = some (n, o, frame₁, flow)) ∧
      LandedAt M.labelOf code Inv k frame₁ flow) :
    Simulation M M (expandPieces g code) (fun k frame frame' => frame = frame' ∧ Inv k frame) Eq
      True where
  labelOf_eq := rfl
  labelled p hp := by
    obtain ⟨k, hk⟩ := List.mem_iff_getElem?.mp hp
    obtain ⟨i, hi, rfl⟩ := getElem?_expandPieces hk
    cases hlabel : M.labelOf i with
    | none => exact .plain (by simpa using hlabel) (hplain k i hi hlabel)
    | some l =>
      rw [hkeep k i l hi hlabel]
      exact .label hlabel
  piece := by
    intro k p hp frame frame' n os frame₁ flow hQ hblock
    obtain ⟨i, hi, rfl⟩ := getElem?_expandPieces hp
    obtain ⟨rfl, hinv⟩ := hQ
    obtain ⟨rfl, hold⟩ := Machine.exec_of_block_single hblock
    obtain ⟨⟨n', hle, hnew⟩, hlanded⟩ := hexec k i hi frame os frame₁ flow hinv hold
    refine ⟨n', frame₁, .same hnew, fun _ => hle, ?_⟩
    cases flow with
    | next => exact ⟨rfl, hlanded⟩
    | goto l =>
      intro j q hq hlabel
      obtain ⟨i', hi', rfl⟩ := getElem?_expandPieces hq
      obtain ⟨i'', heq, hl⟩ := hlabel
      cases heq
      exact ⟨rfl, hlanded j i' hi' hl⟩
    | ret v => rfl
  finish hQ := hQ.1

end Expand

end Lib
