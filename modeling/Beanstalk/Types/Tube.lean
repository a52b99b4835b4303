import Beanstalk.Types.BTreeMap
import Mathlib.Data.PNat.Basic
import Mathlib.Data.Prod.Lex
import Mathlib.Logic.Relation

/-!
# Tube — a tube's indices and their representation invariant

`types/tube.rs`: a `TubeState` keeps its ready and buried jobs in maps keyed by a sequence
number (`ReadyPos`, `BuriedPos`) taken from a counter (`ready_sn`, `buried_sn`), its delayed
jobs in a set of `(until, id)` pairs, and the counts of each in `stats`.

Every panic of the Rust code is `none` here: the `assert!`s on `insert`, the `unwrap` on
`remove`, and the `u64` decrement of a count at zero.  Sequence numbers and counts are
unbounded naturals (fewer than `2^64` insertions).

`put_ready` and `put_buried` share one body (`putAt`), as do `take_ready` and `take_buried`
(`takeAt`); each is specified once.  From those specs:

* `TubeState.Inv` (counts are sizes, sequence numbers lie above every key) holds in every
  state reachable from an empty tube under the callers' preconditions, where no operation
  panics and a put appends its job at the end of its map (`reachable_tube_invariant`);
* the ready map is ordered by insertion alone, so a job put after one of higher priority is
  listed after it (`putReady_ignores_priority`).
-/

namespace Beanstalk
namespace Types

/-- `JobId(NonZeroU64)`. -/
abbrev JobId := ℕ+

/-- `ReadyPos(u64)`: a sequence number in a tube's ready map. -/
abbrev ReadyPos := Nat

/-- `BuriedPos(u64)`: a sequence number in a tube's buried map. -/
abbrev BuriedPos := Nat

/-- `Pri(u32)`: a job's priority, lower is more urgent. -/
abbrev Pri := UInt32

/-- `tokio::time::Instant`: a point on the server's monotone clock. -/
abbrev Instant := Nat

/-- The counters of `TubeStats` that the tube and the server maintain. -/
structure TubeStats where
  currentJobsReady : Nat
  currentJobsReserved : Nat
  currentJobsDelayed : Nat
  currentJobsBuried : Nat
  deriving DecidableEq, Repr

/-- `TubeState`, without `pause_until`, which no modelled operation reads. -/
structure TubeState where
  buried : BTreeMap BuriedPos JobId
  buriedSn : BuriedPos
  ready : BTreeMap ReadyPos JobId
  readySn : ReadyPos
  delayed : BTreeSet (Lex (Instant × JobId))
  stats : TubeStats

/-! ## Operations -/

/-- The body shared by `put_ready` and `put_buried`: the next sequence number is the position,
the counter moves on, the insert must find the position free (`assert!`), and the job is
counted.  Returns the position, the map, the counter and the count. -/
def putAt (m : BTreeMap Nat JobId) (sn count : Nat) (jobId : JobId) :
    Option (Nat × BTreeMap Nat JobId × Nat × Nat) :=
  if (m.insert sn jobId).1.isNone then some (sn, (m.insert sn jobId).2, sn + 1, count + 1)
  else none

/-- The body shared by `take_ready` and `take_buried`: the removed position must be present
(`unwrap`), and the count is decremented (a `u64`, so zero panics). -/
def takeAt (m : BTreeMap Nat JobId) (count pos : Nat) : Option (BTreeMap Nat JobId × Nat) :=
  if (m.remove pos).1.isSome ∧ count ≠ 0 then some ((m.remove pos).2, count - 1) else none

namespace TubeState

/-- `put_ready`: the job's position and the new state. -/
def putReady (t : TubeState) (jobId : JobId) : Option (ReadyPos × TubeState) :=
  (putAt t.ready t.readySn t.stats.currentJobsReady jobId).map fun (rp, ready, readySn, n) =>
    (rp, { t with ready := ready, readySn := readySn,
                  stats := { t.stats with currentJobsReady := n } })

/-- `put_buried`: the job's position and the new state. -/
def putBuried (t : TubeState) (jobId : JobId) : Option (BuriedPos × TubeState) :=
  (putAt t.buried t.buriedSn t.stats.currentJobsBuried jobId).map fun (bp, buried, buriedSn, n) =>
    (bp, { t with buried := buried, buriedSn := buriedSn,
                  stats := { t.stats with currentJobsBuried := n } })

/-- `put_delayed`: the pair must be new to the set (`assert!`). -/
def putDelayed (t : TubeState) (jobId : JobId) (until' : Instant) : Option TubeState :=
  if (BTreeSet.insert t.delayed (toLex (until', jobId))).1 then
    some { t with delayed := (BTreeSet.insert t.delayed (toLex (until', jobId))).2,
                  stats := { t.stats with currentJobsDelayed := t.stats.currentJobsDelayed + 1 } }
  else none

/-- `take_buried`. -/
def takeBuried (t : TubeState) (pos : BuriedPos) : Option TubeState :=
  (takeAt t.buried t.stats.currentJobsBuried pos).map fun (buried, n) =>
    { t with buried := buried, stats := { t.stats with currentJobsBuried := n } }

/-- `take_ready`. -/
def takeReady (t : TubeState) (pos : ReadyPos) : Option TubeState :=
  (takeAt t.ready t.stats.currentJobsReady pos).map fun (ready, n) =>
    { t with ready := ready, stats := { t.stats with currentJobsReady := n } }

end TubeState

/-- A call of one of the five operations. -/
inductive TubeOp
  | putReady (jobId : JobId)
  | putBuried (jobId : JobId)
  | putDelayed (jobId : JobId) (until' : Instant)
  | takeReady (pos : ReadyPos)
  | takeBuried (pos : BuriedPos)

namespace TubeState

/-- The state after one call, `none` if it panics. -/
def apply (t : TubeState) : TubeOp → Option TubeState
  | .putReady j => (t.putReady j).map Prod.snd
  | .putBuried j => (t.putBuried j).map Prod.snd
  | .putDelayed j u => t.putDelayed j u
  | .takeReady pos => t.takeReady pos
  | .takeBuried pos => t.takeBuried pos

/-- What the callers guarantee: a take names a present position, and a delayed pair is new. -/
def Allowed (t : TubeState) : TubeOp → Prop
  | .putDelayed j u => t.delayed.get? (toLex (u, j)) = none
  | .takeReady pos => (t.ready.get? pos).isSome
  | .takeBuried pos => (t.buried.get? pos).isSome
  | _ => True

/-- An empty tube: no jobs and zero counts (the sequence numbers may start anywhere). -/
structure Empty (t : TubeState) : Prop where
  ready : t.ready.entries = []
  buried : t.buried.entries = []
  delayed : t.delayed.entries = []
  readyCount : t.stats.currentJobsReady = 0
  buriedCount : t.stats.currentJobsBuried = 0
  delayedCount : t.stats.currentJobsDelayed = 0

/-- A new tube, with both sequence counters at zero. -/
def empty : TubeState := ⟨.empty, 0, .empty, 0, .empty, ⟨0, 0, 0, 0⟩⟩

theorem empty_empty : empty.Empty := ⟨rfl, rfl, rfl, rfl, rfl, rfl⟩

/-- The states reachable from an empty tube by allowed calls that do not panic. -/
inductive Reachable : TubeState → Prop
  | empty {t : TubeState} : t.Empty → Reachable t
  | step {t t' : TubeState} {op : TubeOp} : Reachable t → t.Allowed op → t.apply op = some t' →
      Reachable t'

end TubeState

/-! ## The invariant of a sequence-numbered map -/

/-- The count is the size of the map, and every key lies below the sequence counter. -/
structure SeqInv (m : BTreeMap Nat JobId) (sn count : Nat) : Prop where
  count_eq : count = m.len
  lt_sn : ∀ e ∈ m.entries, e.1 < sn

section seq

variable {m : BTreeMap Nat JobId} {sn count pos : Nat} {jobId : JobId}

/-- Under the invariant a put never panics: it appends the job at the counter's position. -/
theorem putAt_of_seqInv (h : SeqInv m sn count) :
    ∃ m', putAt m sn count jobId = some (sn, m', sn + 1, count + 1) ∧
      m'.entries = m.entries ++ [(sn, jobId)] := by
  rw [putAt, BTreeMap.insert_of_lt h.lt_sn]
  exact ⟨_, rfl, rfl⟩

theorem SeqInv.putAt (h : SeqInv m sn count) {m' : BTreeMap Nat JobId}
    (hm' : m'.entries = m.entries ++ [(sn, jobId)]) : SeqInv m' (sn + 1) (count + 1) := by
  refine ⟨by simp [BTreeMap.len, hm', h.count_eq], fun e he => ?_⟩
  rw [hm', List.mem_append, List.mem_singleton] at he
  rcases he with he | rfl
  · exact Nat.lt_succ_of_lt (h.lt_sn e he)
  · exact Nat.lt_succ_self sn

/-- Under the invariant a take of a present position never panics: it removes that entry. -/
theorem takeAt_of_seqInv (h : SeqInv m sn count) (hpos : (m.get? pos).isSome) :
    takeAt m count pos = some ((m.remove pos).2, count - 1) ∧
      SeqInv (m.remove pos).2 sn (count - 1) := by
  obtain ⟨v, hv⟩ := Option.isSome_iff_exists.mp hpos
  have hlen := BTreeMap.len_remove_of_get?_eq_some hv
  have hcount : count ≠ 0 := by rw [h.count_eq]; omega
  refine ⟨by simp [takeAt, hv, hcount], by rw [h.count_eq]; omega,
    fun e he => h.lt_sn e (BTreeMap.mem_remove.mp he).1⟩

/-- Under the invariant, taking back what a put has just added gives the map and the count back;
only the counter has moved on. -/
theorem putAt_takeAt_of_seqInv (h : SeqInv m sn count) :
    ∃ m', putAt m sn count jobId = some (sn, m', sn + 1, count + 1) ∧
      takeAt m' (count + 1) sn = some (m, count) := by
  have hlt := h.lt_sn
  have hnone : m.get? sn = none := BTreeMap.get?_eq_none_iff.mpr fun e he => (hlt e he).ne
  have hget : (m.insert sn jobId).2.get? sn = some jobId := by
    rw [BTreeMap.insert_of_lt hlt]
    exact BTreeMap.get?_eq_some_iff.mpr (by simp)
  refine ⟨(m.insert sn jobId).2, by simp [putAt, hnone], ?_⟩
  simp [takeAt, hget, BTreeMap.remove_insert_of_lt hlt]

end seq

/-! ## The tube invariant -/

namespace TubeState

/-- The representation invariant: counts are sizes, and sequence numbers lie above every key. -/
structure Inv (t : TubeState) : Prop where
  ready : SeqInv t.ready t.readySn t.stats.currentJobsReady
  buried : SeqInv t.buried t.buriedSn t.stats.currentJobsBuried
  delayed : t.stats.currentJobsDelayed = t.delayed.len

variable {t t' : TubeState} {op : TubeOp} {jobId : JobId}

theorem Empty.inv (h : t.Empty) : t.Inv where
  ready := ⟨by simp [BTreeMap.len, h.ready, h.readyCount], by simp [h.ready]⟩
  buried := ⟨by simp [BTreeMap.len, h.buried, h.buriedCount], by simp [h.buried]⟩
  delayed := by simp [BTreeMap.len, h.delayed, h.delayedCount]

/-- `put_ready` on a tube with the invariant: the job goes to the end of the ready map, at the
counter's position. -/
theorem putReady_of_inv (h : t.Inv) :
    ∃ t', t.putReady jobId = some (t.readySn, t') ∧
      t'.ready.entries = t.ready.entries ++ [(t.readySn, jobId)] ∧ t'.readySn = t.readySn + 1 ∧
      t'.Inv := by
  obtain ⟨m', hput, hm'⟩ := @putAt_of_seqInv _ _ _ jobId h.ready
  simp only [putReady, hput, Option.map_some']
  exact ⟨_, rfl, hm', rfl, { h with ready := h.ready.putAt hm' }⟩

/-- `put_buried` on a tube with the invariant: the job goes to the end of the buried map, at
the counter's position. -/
theorem putBuried_of_inv (h : t.Inv) :
    ∃ t', t.putBuried jobId = some (t.buriedSn, t') ∧
      t'.buried.entries = t.buried.entries ++ [(t.buriedSn, jobId)] ∧ t'.Inv := by
  obtain ⟨m', hput, hm'⟩ := @putAt_of_seqInv _ _ _ jobId h.buried
  simp only [putBuried, hput, Option.map_some']
  exact ⟨_, rfl, hm', { h with buried := h.buried.putAt hm' }⟩

theorem putDelayed_of_inv (h : t.Inv) {until' : Instant}
    (hnew : t.delayed.get? (toLex (until', jobId)) = none) :
    ∃ t', t.putDelayed jobId until' = some t' ∧ t'.Inv := by
  simp only [putDelayed, BTreeSet.insert, BTreeMap.insert_fst, hnew, Option.isNone_none, ite_true]
  exact ⟨_, rfl, { h with delayed := by rw [BTreeMap.len_insert_of_get?_eq_none hnew, h.delayed] }⟩

theorem takeReady_of_inv (h : t.Inv) {pos : ReadyPos} (hpos : (t.ready.get? pos).isSome) :
    ∃ t', t.takeReady pos = some t' ∧ t'.Inv := by
  obtain ⟨htake, hinv⟩ := takeAt_of_seqInv h.ready hpos
  simp only [takeReady, htake, Option.map_some']
  exact ⟨_, rfl, { h with ready := hinv }⟩

theorem takeBuried_of_inv (h : t.Inv) {pos : BuriedPos} (hpos : (t.buried.get? pos).isSome) :
    ∃ t', t.takeBuried pos = some t' ∧ t'.Inv := by
  obtain ⟨htake, hinv⟩ := takeAt_of_seqInv h.buried hpos
  simp only [takeBuried, htake, Option.map_some']
  exact ⟨_, rfl, { h with buried := hinv }⟩

/-- The step lemma: an allowed call on a tube with the invariant does not panic and keeps the
invariant. -/
theorem apply_of_inv (h : t.Inv) (hop : t.Allowed op) : ∃ t', t.apply op = some t' ∧ t'.Inv := by
  cases op with
  | putReady j =>
    obtain ⟨t', hput, -, -, hinv⟩ := @putReady_of_inv _ j h
    exact ⟨t', by simp [apply, hput], hinv⟩
  | putBuried j =>
    obtain ⟨t', hput, -, hinv⟩ := @putBuried_of_inv _ j h
    exact ⟨t', by simp [apply, hput], hinv⟩
  | putDelayed j u => exact putDelayed_of_inv h hop
  | takeReady pos => exact takeReady_of_inv h hop
  | takeBuried pos => exact takeBuried_of_inv h hop

/-- The run lemma: every reachable state has the invariant. -/
theorem Reachable.inv (h : t.Reachable) : t.Inv := by
  induction h with
  | empty he => exact he.inv
  | step _ hop happ ih =>
    obtain ⟨t'', happ', hinv⟩ := apply_of_inv ih hop
    obtain rfl := Option.some.inj (happ.symm.trans happ')
    exact hinv

end TubeState

/-! ## The invariant on every run -/

/-- The tube's representation invariant holds on every run: in every state reachable from an
empty tube, the counts are the sizes of their indices and each sequence counter lies above every
key of its map; every allowed call succeeds (no `assert!`, `unwrap` or decrement panics); and a
put appends its job at the end of its map, under a key larger than every key present, so both
maps list their jobs in insertion order. -/
theorem reachable_tube_invariant (t : TubeState) (h : t.Reachable) :
    (t.stats.currentJobsReady = t.ready.len ∧ t.stats.currentJobsBuried = t.buried.len ∧
      t.stats.currentJobsDelayed = t.delayed.len ∧
      (∀ e ∈ t.ready.entries, e.1 < t.readySn) ∧ (∀ e ∈ t.buried.entries, e.1 < t.buriedSn)) ∧
    (∀ op, t.Allowed op → ∃ t', t.apply op = some t') ∧
    (∀ jobId, ∃ t', t.putReady jobId = some (t.readySn, t') ∧
      t'.ready.entries = t.ready.entries ++ [(t.readySn, jobId)]) ∧
    (∀ jobId, ∃ t', t.putBuried jobId = some (t.buriedSn, t') ∧
      t'.buried.entries = t.buried.entries ++ [(t.buriedSn, jobId)]) := by
  have hinv := h.inv
  exact ⟨⟨hinv.ready.count_eq, hinv.buried.count_eq, hinv.delayed, hinv.ready.lt_sn,
    hinv.buried.lt_sn⟩, fun op hop => (TubeState.apply_of_inv hinv hop).imp fun _ h => h.1,
    fun j => (@TubeState.putReady_of_inv _ j hinv).imp fun _ h => ⟨h.1, h.2.1⟩,
    fun j => (@TubeState.putBuried_of_inv _ j hinv).imp fun _ h => ⟨h.1, h.2.1⟩⟩

/-- A tube after five calls: job 1 put ready, job 2 buried, job 3 delayed until 5, job 4 put
ready, and job 1 taken back from position 0. -/
def TubeState.fiveCalls : TubeState :=
  ⟨⟨[(0, 2)], List.pairwise_singleton _ _⟩, 1, ⟨[(1, 4)], List.pairwise_singleton _ _⟩, 2,
    ⟨[(toLex (5, 3), ())], List.pairwise_singleton _ _⟩, ⟨1, 0, 1, 1⟩⟩

theorem TubeState.fiveCalls_reachable : TubeState.fiveCalls.Reachable := by
  have h₁ := @Reachable.step _ _ (.putReady 1) (.empty empty_empty) trivial rfl
  have h₂ := @Reachable.step _ _ (.putBuried 2) h₁ trivial rfl
  have h₃ := @Reachable.step _ _ (.putDelayed 3 5) h₂ rfl rfl
  have h₄ := @Reachable.step _ _ (.putReady 4) h₃ trivial rfl
  exact @Reachable.step _ _ (.takeReady 0) h₄ rfl rfl

theorem reachable_tube_invariant_five_calls :
    TubeState.fiveCalls.Reachable ∧
    (TubeState.fiveCalls.stats.currentJobsReady = TubeState.fiveCalls.ready.len ∧
      TubeState.fiveCalls.stats.currentJobsBuried = TubeState.fiveCalls.buried.len ∧
      TubeState.fiveCalls.stats.currentJobsDelayed = TubeState.fiveCalls.delayed.len ∧
      (∀ e ∈ TubeState.fiveCalls.ready.entries, e.1 < TubeState.fiveCalls.readySn) ∧
      (∀ e ∈ TubeState.fiveCalls.buried.entries, e.1 < TubeState.fiveCalls.buriedSn)) ∧
    (∀ op, TubeState.fiveCalls.Allowed op → ∃ t', TubeState.fiveCalls.apply op = some t') ∧
    (∀ jobId, ∃ t', TubeState.fiveCalls.putReady jobId = some (TubeState.fiveCalls.readySn, t') ∧
      t'.ready.entries = TubeState.fiveCalls.ready.entries ++ [(TubeState.fiveCalls.readySn, jobId)]) ∧
    (∀ jobId, ∃ t', TubeState.fiveCalls.putBuried jobId = some (TubeState.fiveCalls.buriedSn, t') ∧
      t'.buried.entries =
        TubeState.fiveCalls.buried.entries ++ [(TubeState.fiveCalls.buriedSn, jobId)]) :=
  ⟨TubeState.fiveCalls_reachable,
    reachable_tube_invariant TubeState.fiveCalls TubeState.fiveCalls_reachable⟩

/-! ## Positions over whole runs -/

namespace TubeState

/-- One allowed call that does not panic. -/
def Step (t t' : TubeState) : Prop := ∃ op, t.Allowed op ∧ t.apply op = some t'

end TubeState

/-- What a run starting from the map `m₀` with counter `sn₀` may have done to it: every entry is
one of `m₀`'s or sits at or above `sn₀`, and the counter has not gone back. -/
def FreshFrom (m₀ : BTreeMap Nat JobId) (sn₀ : Nat) (m : BTreeMap Nat JobId) (sn : Nat) : Prop :=
  (∀ e ∈ m.entries, e ∈ m₀.entries ∨ sn₀ ≤ e.1) ∧ sn₀ ≤ sn

section fresh

variable {m₀ m m' : BTreeMap Nat JobId} {sn₀ sn sn' count count' pos p : Nat} {jobId j j' : JobId}

/-- A put adds nothing but the job at the counter's position, and moves the counter on. -/
theorem putAt_fresh (h : putAt m sn count jobId = some (p, m', sn', count')) :
    (∀ e ∈ m'.entries, e ∈ m.entries ∨ e.1 = sn) ∧ sn ≤ sn' := by
  unfold putAt at h
  split at h
  · simp only [Option.some.injEq, Prod.mk.injEq] at h
    obtain ⟨-, rfl, rfl, -⟩ := h
    refine ⟨fun e he => ?_, Nat.le_succ sn⟩
    simp only [BTreeMap.insert, List.mem_append, List.mem_filter, List.mem_cons] at he
    rcases he with ⟨he, -⟩ | rfl | ⟨he, -⟩
    exacts [.inl he, .inr rfl, .inl he]
  · cases h

/-- A take only removes. -/
theorem takeAt_sub (h : takeAt m count pos = some (m', count')) : ∀ e ∈ m'.entries, e ∈ m.entries := by
  unfold takeAt at h
  split at h
  · obtain ⟨rfl, -⟩ := Prod.mk.inj (Option.some.inj h)
    exact fun e he => (BTreeMap.mem_remove.mp he).1
  · cases h

theorem FreshFrom.refl : FreshFrom m₀ sn₀ m₀ sn₀ := ⟨fun _ he => .inl he, le_rfl⟩

/-- The step lemma: a call that only adds at its counter keeps a run fresh. -/
theorem FreshFrom.step (hf : FreshFrom m₀ sn₀ m sn)
    (hstep : (∀ e ∈ m'.entries, e ∈ m.entries ∨ e.1 = sn) ∧ sn ≤ sn') : FreshFrom m₀ sn₀ m' sn' := by
  refine ⟨fun e he => ?_, hf.2.trans hstep.2⟩
  rcases hstep.1 e he with he | he
  · exact hf.1 e he
  · exact .inr (he ▸ hf.2)

/-- A position of the first map below its counter names, in any later map, the job it named
there or none. -/
theorem FreshFrom.unique (hlt : ∀ e ∈ m₀.entries, e.1 < sn₀) (hf : FreshFrom m₀ sn₀ m sn)
    (hj : (pos, j) ∈ m₀.entries) (hj' : (pos, j') ∈ m.entries) : j' = j := by
  rcases hf.1 _ hj' with hj₀ | hle
  · have h₁ := BTreeMap.get?_eq_some_iff.mpr hj
    rw [BTreeMap.get?_eq_some_iff.mpr hj₀] at h₁
    exact Option.some.inj h₁
  · exact absurd (hlt _ hj) (not_lt.mpr hle)

end fresh

namespace TubeState

variable {t t' : TubeState}

/-- What one call does to the positions: each map gains at most the entry at its counter, and
no counter goes back. -/
theorem apply_fresh {op : TubeOp} (h : t.apply op = some t') :
    ((∀ e ∈ t'.ready.entries, e ∈ t.ready.entries ∨ e.1 = t.readySn) ∧ t.readySn ≤ t'.readySn) ∧
    ((∀ e ∈ t'.buried.entries, e ∈ t.buried.entries ∨ e.1 = t.buriedSn) ∧
      t.buriedSn ≤ t'.buriedSn) := by
  have hsame : ∀ m : BTreeMap Nat JobId, ∀ sn : Nat,
      (∀ e ∈ m.entries, e ∈ m.entries ∨ e.1 = sn) ∧ sn ≤ sn := fun _ _ => ⟨fun _ he => .inl he, le_rfl⟩
  cases op with
  | putReady j =>
    simp only [apply, putReady, Option.map_map, Option.map_eq_some'] at h
    obtain ⟨⟨p, m, sn, n⟩, hput, rfl⟩ := h
    exact ⟨putAt_fresh hput, hsame _ _⟩
  | putBuried j =>
    simp only [apply, putBuried, Option.map_map, Option.map_eq_some'] at h
    obtain ⟨⟨p, m, sn, n⟩, hput, rfl⟩ := h
    exact ⟨hsame _ _, putAt_fresh hput⟩
  | putDelayed j u =>
    simp only [apply, putDelayed] at h
    split at h
    · cases h
      exact ⟨hsame _ _, hsame _ _⟩
    · cases h
  | takeReady pos =>
    simp only [apply, takeReady, Option.map_eq_some'] at h
    obtain ⟨⟨m, n⟩, htake, rfl⟩ := h
    exact ⟨⟨fun e he => .inl (takeAt_sub htake e he), le_rfl⟩, hsame _ _⟩
  | takeBuried pos =>
    simp only [apply, takeBuried, Option.map_eq_some'] at h
    obtain ⟨⟨m, n⟩, htake, rfl⟩ := h
    exact ⟨hsame _ _, ⟨fun e he => .inl (takeAt_sub htake e he), le_rfl⟩⟩

/-- The run lemma: along any run, both maps stay fresh with respect to the first state. -/
theorem run_fresh (hrun : Relation.ReflTransGen Step t t') :
    FreshFrom t.ready t.readySn t'.ready t'.readySn ∧
      FreshFrom t.buried t.buriedSn t'.buried t'.buriedSn := by
  induction hrun with
  | refl => exact ⟨.refl, .refl⟩
  | tail _ hstep ih =>
    obtain ⟨op, -, happ⟩ := hstep
    exact ⟨ih.1.step (apply_fresh happ).1, ih.2.step (apply_fresh happ).2⟩

end TubeState

/-- A position names one job for the life of a tube.  Once a job sits at a position of the
ready map (or of the buried map) in a reachable state, no later state of any run holds another
job at that position, even after the job has been taken out: every put uses the counter's
position, and counters only grow.  So the position a job's `JobState` records can never come to
name a different job. -/
theorem position_never_reused (t t' : TubeState) (ht : t.Reachable)
    (hrun : Relation.ReflTransGen TubeState.Step t t') (pos : Nat) (j j' : JobId) :
    ((pos, j) ∈ t.ready.entries → (pos, j') ∈ t'.ready.entries → j' = j) ∧
    ((pos, j) ∈ t.buried.entries → (pos, j') ∈ t'.buried.entries → j' = j) :=
  ⟨(TubeState.run_fresh hrun).1.unique ht.inv.ready.lt_sn,
    (TubeState.run_fresh hrun).2.unique ht.inv.buried.lt_sn⟩

/-- A tube that has had job 1 put on it: job 1 is ready at position 0. -/
def TubeState.jobOneReady : TubeState :=
  ⟨.empty, 0, ⟨[(0, 1)], List.pairwise_singleton _ _⟩, 1, .empty, ⟨1, 0, 0, 0⟩⟩

theorem TubeState.jobOneReady_reachable : TubeState.jobOneReady.Reachable :=
  @TubeState.Reachable.step TubeState.empty _ (.putReady 1) (.empty TubeState.empty_empty) trivial rfl

/-- Job 1 taken from `jobOneReady` and job 2 put: job 2 gets position 1, and position 0 stays
empty. -/
theorem position_never_reused_take_put :
    TubeState.jobOneReady.Reachable ∧
    Relation.ReflTransGen TubeState.Step TubeState.jobOneReady
      ⟨.empty, 0, ⟨[(1, 2)], List.pairwise_singleton _ _⟩, 2, .empty, ⟨1, 0, 0, 0⟩⟩ ∧
    (((0, 1) ∈ TubeState.jobOneReady.ready.entries →
        (0, 2) ∈ (⟨[(1, 2)], List.pairwise_singleton _ _⟩ : BTreeMap ReadyPos JobId).entries →
        (2 : JobId) = 1) ∧
      ((0, 1) ∈ TubeState.jobOneReady.buried.entries →
        (0, 2) ∈ (BTreeMap.empty : BTreeMap BuriedPos JobId).entries → (2 : JobId) = 1)) := by
  have hrun : Relation.ReflTransGen TubeState.Step TubeState.jobOneReady
      ⟨.empty, 0, ⟨[(1, 2)], List.pairwise_singleton _ _⟩, 2, .empty, ⟨1, 0, 0, 0⟩⟩ :=
    .tail (.single ⟨.takeReady 0, rfl, rfl⟩) ⟨.putReady 2, trivial, rfl⟩
  exact ⟨TubeState.jobOneReady_reachable, hrun,
    position_never_reused _ _ TubeState.jobOneReady_reachable hrun 0 1 2⟩

/-- Putting a job and taking it back at the position the put returned gives the tube back, maps
and counts alike; only the counter has moved on, so that position is not handed out again.  The
same holds of the ready map and of the buried map, in every reachable state. -/
theorem put_take_restores (t : TubeState) (ht : t.Reachable) (jobId : JobId) :
    (∃ t₁, t.putReady jobId = some (t.readySn, t₁) ∧
      t₁.takeReady t.readySn = some { t with readySn := t.readySn + 1 }) ∧
    (∃ t₁, t.putBuried jobId = some (t.buriedSn, t₁) ∧
      t₁.takeBuried t.buriedSn = some { t with buriedSn := t.buriedSn + 1 }) := by
  obtain ⟨mr, hputr, htaker⟩ := @putAt_takeAt_of_seqInv _ _ _ jobId ht.inv.ready
  obtain ⟨mb, hputb, htakeb⟩ := @putAt_takeAt_of_seqInv _ _ _ jobId ht.inv.buried
  refine ⟨⟨_, by simp only [TubeState.putReady, hputr, Option.map_some']; rfl, ?_⟩,
    ⟨_, by simp only [TubeState.putBuried, hputb, Option.map_some']; rfl, ?_⟩⟩
  · simp only [TubeState.takeReady, htaker, Option.map_some']
  · simp only [TubeState.takeBuried, htakeb, Option.map_some']

/-- Job 2 put on the tube holding job 1, and taken back. -/
theorem put_take_restores_job_one_ready :
    TubeState.jobOneReady.Reachable ∧
    (∃ t₁, TubeState.jobOneReady.putReady 2 = some (TubeState.jobOneReady.readySn, t₁) ∧
      t₁.takeReady TubeState.jobOneReady.readySn =
        some { TubeState.jobOneReady with readySn := TubeState.jobOneReady.readySn + 1 }) ∧
    (∃ t₁, TubeState.jobOneReady.putBuried 2 = some (TubeState.jobOneReady.buriedSn, t₁) ∧
      t₁.takeBuried TubeState.jobOneReady.buriedSn =
        some { TubeState.jobOneReady with buriedSn := TubeState.jobOneReady.buriedSn + 1 }) :=
  ⟨TubeState.jobOneReady_reachable, put_take_restores _ TubeState.jobOneReady_reachable 2⟩

/-! ## Priority -/

/-- The order the protocol asks of a ready index: by priority (taken from the job store), then
by insertion sequence. -/
def ReadyOrdered (pri : JobId → Pri) (t : TubeState) : Prop :=
  t.ready.entries.Pairwise fun a b => toLex ((pri a.2).toNat, a.1) < toLex ((pri b.2).toNat, b.1)

/-- The ready map is keyed by insertion sequence alone: from any reachable state, putting a job
and then one of strictly more urgent priority lists the less urgent one first, so the ready map
is not ordered by priority. -/
theorem putReady_ignores_priority (pri : JobId → Pri) (t : TubeState) (ht : t.Reachable)
    (a b : JobId) (hpri : (pri b).toNat < (pri a).toNat) :
    ∃ t₁ t₂, t.putReady a = some (t.readySn, t₁) ∧ t₁.putReady b = some (t.readySn + 1, t₂) ∧
      t₂.ready.entries = t.ready.entries ++ [(t.readySn, a), (t.readySn + 1, b)] ∧
      ¬ReadyOrdered pri t₂ := by
  obtain ⟨t₁, h₁, he₁, hsn₁, hinv₁⟩ := @TubeState.putReady_of_inv _ a ht.inv
  obtain ⟨t₂, h₂, he₂, -, -⟩ := @TubeState.putReady_of_inv _ b hinv₁
  have hentries : t₂.ready.entries = t.ready.entries ++ [(t.readySn, a), (t.readySn + 1, b)] := by
    rw [he₂, he₁, hsn₁, List.append_assoc]; rfl
  refine ⟨t₁, t₂, h₁, hsn₁ ▸ h₂, hentries, fun hord => ?_⟩
  rw [ReadyOrdered, hentries, List.pairwise_append] at hord
  have hab := List.pairwise_pair.mp hord.2.1
  rw [Prod.Lex.lt_iff] at hab
  dsimp only at hab
  omega

theorem putReady_ignores_priority_one_two :
    ((fun j : JobId => if j = 1 then (10 : Pri) else 5) 2).toNat <
        ((fun j : JobId => if j = 1 then (10 : Pri) else 5) 1).toNat ∧
    ∃ t₁ t₂, TubeState.empty.putReady 1 = some (TubeState.empty.readySn, t₁) ∧
      t₁.putReady 2 = some (TubeState.empty.readySn + 1, t₂) ∧
      t₂.ready.entries = TubeState.empty.ready.entries ++
        [(TubeState.empty.readySn, 1), (TubeState.empty.readySn + 1, 2)] ∧
      ¬ReadyOrdered (fun j => if j = 1 then 10 else 5) t₂ :=
  ⟨by decide, putReady_ignores_priority _ _ (.empty TubeState.empty_empty) 1 2 (by decide)⟩

end Types
end Beanstalk
