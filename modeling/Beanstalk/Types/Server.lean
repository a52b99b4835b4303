import Beanstalk.Types.Tube
import Mathlib.Data.List.Lex

/-!
# Server — the job store and `reserve_by_id`

`types/tube.rs`, `types/job.rs`, `types/states.rs`: the server keeps every job, with the name
of its tube, in `jobs`, and each tube's indices in `queues`.  `Server.Consistent` is the store
invariant: every job's tube exists, each tube's ready, buried and delayed indices hold exactly
the tube's jobs in those states at the positions their states carry, and each tube's counts
are the numbers of its jobs in each state.

`reserve_by_id` finds the job, checks that it is ready, and removes its position from its
tube's ready map.  It never writes the job back: the job keeps its state `Ready { pos }` and
its `reserves`, and no tube counts it as reserved (`reserveById_leaves_job_ready`).  The
store is then no longer consistent, and a second call on the same id panics on the
`unwrap` of the removed position (`reserveById_breaks_consistency`).

The other methods of `Server` are `todo!()` in the source and are not modelled.
-/

namespace Beanstalk
namespace Types

/-- `JobState`. -/
inductive JobState
  | ready (pos : ReadyPos)
  | delayed (until' : Instant)
  | reserved (deadline : Instant)
  | buried (pos : BuriedPos)
  deriving DecidableEq, Repr

namespace JobState

/-- The ready position a state carries. -/
def readyPos? : JobState → Option ReadyPos
  | ready pos => some pos
  | _ => none

/-- The buried position a state carries. -/
def buriedPos? : JobState → Option BuriedPos
  | buried pos => some pos
  | _ => none

/-- The instant a delayed state carries. -/
def delayedUntil? : JobState → Option Instant
  | delayed until' => some until'
  | _ => none

/-- Whether the state is `Reserved`. -/
def isReserved : JobState → Bool
  | reserved _ => true
  | _ => false

end JobState

/-- `Job`. -/
structure Job where
  pri : Pri
  data : List UInt8
  state : JobState
  created : Instant
  ttr : UInt32
  reserves : UInt64
  timeouts : UInt64
  releases : UInt64
  buries : UInt64
  kicks : UInt64
  deriving DecidableEq, Repr

/-- `QueueName(Vec<u8>)`, ordered as its bytes are. -/
structure QueueName where
  name : List UInt8

instance : LinearOrder QueueName :=
  LinearOrder.lift' (fun q => q.name.map UInt8.toNat) fun a b h => by
    cases a; cases b
    exact congrArg _ (List.map_injective_iff.mpr (fun _ _ => UInt8.toNat.inj) h)

/-- `Server`, without `id` and `is_draining`, which `reserve_by_id` does not read. -/
structure Server where
  jobs : BTreeMap JobId (QueueName × Job)
  queues : BTreeMap QueueName TubeState

namespace Server

/-- `reserve_by_id`: the job if it was ready, and the new server; `none` where it panics
(the `unwrap` of the tube, or `take_ready`'s). -/
def reserveById (s : Server) (id : JobId) : Option (Option Job × Server) :=
  match s.jobs.get? id with
  | none => some (none, s)
  | some (qn, job) =>
    match job.state with
    | .ready pos =>
      match s.queues.get? qn with
      | none => none
      | some queue =>
        (queue.takeReady pos).map fun queue' =>
          (some job, { s with queues := s.queues.modify qn fun _ => queue' })
    | _ => some (none, s)

/-! ## The store invariant -/

/-- The entries a tube's index must hold: for each job on the tube whose state `sel` picks, the
picked position or instant and the job's id. -/
def tubeIndex {α : Type} (jobs : BTreeMap JobId (QueueName × Job)) (qn : QueueName)
    (sel : JobState → Option α) : List (α × JobId) :=
  jobs.entries.filterMap fun e => if e.2.1 = qn then (sel e.2.2.state).map (·, e.1) else none

/-- The number of jobs on a tube whose state satisfies `p`. -/
def tubeCount (jobs : BTreeMap JobId (QueueName × Job)) (qn : QueueName)
    (p : JobState → Bool) : Nat :=
  (jobs.entries.filter fun e => e.2.1 = qn ∧ p e.2.2.state).length

/-- The store invariant.  Each index holds, up to order, exactly the entries the job store
asks of it: so a job in state `Ready { pos }` is in its tube's ready map at `pos` and in no
other index of any tube, and every index entry names a job on that tube whose state carries
that position. -/
structure Consistent (s : Server) : Prop where
  tubes : ∀ e ∈ s.jobs.entries, (s.queues.get? e.2.1).isSome
  ready : ∀ q ∈ s.queues.entries, q.2.ready.entries.Perm (tubeIndex s.jobs q.1 JobState.readyPos?)
  buried : ∀ q ∈ s.queues.entries,
    q.2.buried.entries.Perm (tubeIndex s.jobs q.1 JobState.buriedPos?)
  delayed : ∀ q ∈ s.queues.entries,
    (q.2.delayed.entries.map Prod.fst).Perm ((tubeIndex s.jobs q.1 JobState.delayedUntil?).map toLex)
  counts : ∀ q ∈ s.queues.entries,
    q.2.stats.currentJobsReady = tubeCount s.jobs q.1 (·.readyPos?.isSome) ∧
    q.2.stats.currentJobsBuried = tubeCount s.jobs q.1 (·.buriedPos?.isSome) ∧
    q.2.stats.currentJobsDelayed = tubeCount s.jobs q.1 (·.delayedUntil?.isSome) ∧
    q.2.stats.currentJobsReserved = tubeCount s.jobs q.1 JobState.isReserved

/-! ## `reserve_by_id` -/

variable {s : Server} {id : JobId} {qn : QueueName} {job : Job} {pos : ReadyPos}

theorem mem_tubeIndex_of_ready (hjob : s.jobs.get? id = some (qn, job))
    (hready : job.state = .ready pos) : (pos, id) ∈ tubeIndex s.jobs qn JobState.readyPos? :=
  List.mem_filterMap.mpr ⟨(id, qn, job), BTreeMap.get?_eq_some_iff.mp hjob, by simp [hready,
    JobState.readyPos?]⟩

/-- A job that is not ready is not reserved, and the server is left unchanged. -/
theorem reserveById_of_not_ready
    (h : ∀ qn job, s.jobs.get? id = some (qn, job) → job.state.readyPos? = none) :
    s.reserveById id = some (none, s) := by
  unfold reserveById
  split
  · rfl
  · rename_i qn job hjob
    have := h qn job hjob
    split <;> simp_all [JobState.readyPos?]

/-- On a consistent server, `reserve_by_id` of a ready job finds its tube and its position, and
only removes that position from the tube's ready map and uncounts it. -/
theorem reserveById_of_ready (hs : s.Consistent) (hjob : s.jobs.get? id = some (qn, job))
    (hready : job.state = .ready pos) :
    ∃ q, s.queues.get? qn = some q ∧ q.ready.get? pos = some id ∧ q.stats.currentJobsReady ≠ 0 ∧
      s.reserveById id = some (some job, { s with queues := s.queues.modify qn fun _ =>
        { q with ready := (q.ready.remove pos).2,
                 stats := { q.stats with currentJobsReady := q.stats.currentJobsReady - 1 } } }) := by
  have hmem := BTreeMap.get?_eq_some_iff.mp hjob
  obtain ⟨q, hq⟩ := Option.isSome_iff_exists.mp (hs.tubes _ hmem)
  have hqmem := BTreeMap.get?_eq_some_iff.mp hq
  have hpos : q.ready.get? pos = some id := BTreeMap.get?_eq_some_iff.mpr
    ((hs.ready _ hqmem).mem_iff.mpr (mem_tubeIndex_of_ready hjob hready))
  have hcount : q.stats.currentJobsReady ≠ 0 := by
    rw [(hs.counts _ hqmem).1]
    exact List.length_pos_of_mem (List.mem_filter.mpr ⟨hmem, by simp [hready, JobState.readyPos?]⟩)
      |>.ne'
  refine ⟨q, hq, hpos, hcount, ?_⟩
  simp only [reserveById, hjob, hready, hq, TubeState.takeReady, takeAt, BTreeMap.remove_fst, hpos,
    Option.isSome_some, ne_eq, hcount, not_false_eq_true, and_self, ite_true, Option.map_some']

/-- A ready job of priority 0 at position 0. -/
def readyJob : Job := ⟨0, [], .ready 0, 0, 0, 0, 0, 0, 0, 0⟩

/-- A consistent server with one tube, holding `readyJob` as job 1. -/
def oneReadyJob : Server where
  jobs := ⟨[(1, (⟨[100]⟩, readyJob))], List.pairwise_singleton _ _⟩
  queues := ⟨[(⟨[100]⟩, ⟨.empty, 0, ⟨[(0, 1)], List.pairwise_singleton _ _⟩, 1, .empty, ⟨1, 0, 0, 0⟩⟩)],
    List.pairwise_singleton _ _⟩

/-- `reserve_by_id` does not reserve.  On a consistent server, for a ready job it returns the job
and removes its position from the tube's ready map, one fewer ready job counted; but the job
store is unchanged, so the job is still `Ready { pos }` with the same `reserves`, and the tube's
count of reserved jobs is unchanged. -/
theorem reserveById_leaves_job_ready (s : Server) (hs : s.Consistent) (id : JobId)
    (qn : QueueName) (job : Job) (pos : ReadyPos) (hjob : s.jobs.get? id = some (qn, job))
    (hready : job.state = .ready pos) :
    ∃ q q' s', s.queues.get? qn = some q ∧ s.reserveById id = some (some job, s') ∧
      s'.jobs = s.jobs ∧ s'.queues.get? qn = some q' ∧ q'.ready.get? pos = none ∧
      q'.stats.currentJobsReady + 1 = q.stats.currentJobsReady ∧
      q'.stats.currentJobsReserved = q.stats.currentJobsReserved := by
  obtain ⟨q, hq, -, hcount, hres⟩ := reserveById_of_ready hs hjob hready
  exact ⟨q, { q with ready := (q.ready.remove pos).2,
                     stats := { q.stats with currentJobsReady := q.stats.currentJobsReady - 1 } },
    _, hq, hres, rfl, by simp [BTreeMap.get?_modify, hq], by simp,
    Nat.sub_add_cancel (Nat.pos_of_ne_zero hcount), rfl⟩

theorem reserveById_leaves_job_ready_oneReadyJob :
    oneReadyJob.Consistent ∧ oneReadyJob.jobs.get? 1 = some (⟨[100]⟩, readyJob) ∧
    readyJob.state = .ready 0 ∧
    ∃ q q' s', oneReadyJob.queues.get? ⟨[100]⟩ = some q ∧
      oneReadyJob.reserveById 1 = some (some readyJob, s') ∧ s'.jobs = oneReadyJob.jobs ∧
      s'.queues.get? ⟨[100]⟩ = some q' ∧ q'.ready.get? 0 = none ∧
      q'.stats.currentJobsReady + 1 = q.stats.currentJobsReady ∧
      q'.stats.currentJobsReserved = q.stats.currentJobsReserved := by
  have hs : oneReadyJob.Consistent := ⟨by decide, by decide, by decide, by decide, by decide⟩
  exact ⟨hs, rfl, rfl, reserveById_leaves_job_ready _ hs 1 ⟨[100]⟩ readyJob 0 rfl rfl⟩

/-- `reserve_by_id` breaks the store invariant.  On a consistent server, reserving a ready job
succeeds but leaves the job in state `Ready { pos }` with `pos` gone from its tube's ready map:
the server is no longer consistent, and a second call on the same id panics. -/
theorem reserveById_breaks_consistency (s : Server) (hs : s.Consistent) (id : JobId)
    (qn : QueueName) (job : Job) (pos : ReadyPos) (hjob : s.jobs.get? id = some (qn, job))
    (hready : job.state = .ready pos) :
    ∃ s', s.reserveById id = some (some job, s') ∧ ¬s'.Consistent ∧ s'.reserveById id = none := by
  obtain ⟨q, hq, -, -, hres⟩ := reserveById_of_ready hs hjob hready
  set q' : TubeState := { q with ready := (q.ready.remove pos).2,
                                 stats := { q.stats with currentJobsReady :=
                                   q.stats.currentJobsReady - 1 } } with hq₁
  have hq' : (s.queues.modify qn fun _ => q').get? qn = some q' := by
    simp [BTreeMap.get?_modify, hq]
  have hpos' : q'.ready.get? pos = none := by simp [hq₁]
  refine ⟨_, hres, fun hs' => ?_, ?_⟩
  · -- the job is still ready at `pos`, so a consistent store would index it there
    obtain ⟨q₂, hq₂, hpos₂, -⟩ := @reserveById_of_ready _ id qn job pos hs' hjob hready
    rw [hq', Option.some.injEq] at hq₂
    rw [← hq₂, hpos'] at hpos₂
    exact Option.noConfusion hpos₂
  · -- the removed position makes `take_ready`'s `unwrap` panic
    simp only [reserveById, hjob, hready, hq', TubeState.takeReady, takeAt, BTreeMap.remove_fst,
      hpos', Option.isSome_none, Bool.false_eq_true, false_and, ite_false, Option.map_none']

theorem reserveById_breaks_consistency_oneReadyJob :
    oneReadyJob.Consistent ∧ oneReadyJob.jobs.get? 1 = some (⟨[100]⟩, readyJob) ∧
    readyJob.state = .ready 0 ∧
    ∃ s', oneReadyJob.reserveById 1 = some (some readyJob, s') ∧ ¬s'.Consistent ∧
      s'.reserveById 1 = none := by
  have hs : oneReadyJob.Consistent := ⟨by decide, by decide, by decide, by decide, by decide⟩
  exact ⟨hs, rfl, rfl, reserveById_breaks_consistency _ hs 1 ⟨[100]⟩ readyJob 0 rfl rfl⟩

end Server

end Types
end Beanstalk
