import ResidentInference.BlockValues
import ResidentInference.Calls
import ResidentInference.PriorityQueue
import Mathlib.Data.Prod.Lex

/-! The prefetch scheduler: clients hint at blocks, and a thread of its own reads them from the
tiered cache in the order of their deadlines, while clients go on using the cache. Hints, the
consumer's turns and calls of the cache each hold a lock, so a run is any order of them. -/
namespace ResidentInference

/-- A hint: its deadline, then its block. -/
abbrev Hint := Int ×ₗ Int

/-- Where the consumer thread is. -/
inductive Consumer where
  | waiting
  | reading (blockId : Int)
  | finished

/-- The block that the consumer has taken and not read yet. -/
def Consumer.inHand : Consumer → List Int
  | .reading blockId => [blockId]
  | _ => []

structure PrefetchScheduler (ν π : Type) where
  tieredCache : TieredKVCache ν π
  layerId : Int
  heap : PriorityQueue Hint
  stopped : Bool
  consumer : Consumer

/-- A step of a run, with what it saw. -/
inductive PrefetchEvent (ν : Type) where
  | hint (now : Int) (upcomingBlockIds : List Int)
  | stop
  | take (hint : Hint)
  | prefetch (blockId : Int) (res : Except TieredFault ν)
  | finish
  | call (call : TieredCall ν)

namespace PrefetchScheduler
variable {ν π : Type}

def new (tieredCache : TieredKVCache ν π) (layerId : Int) : PrefetchScheduler ν π where
  tieredCache := tieredCache
  layerId := layerId
  heap := PriorityQueue.empty
  stopped := false
  consumer := .waiting

/-- The blocks with their deadlines, one millisecond apart. -/
def deadlines (now : Int) (upcomingBlockIds : List Int) : List Hint :=
  upcomingBlockIds.zipIdx.map fun (blockId, step) => toLex (now + step, blockId)

def hint (p : PrefetchScheduler ν π) (now : Int) (upcomingBlockIds : List Int) :
    PrefetchScheduler ν π :=
  { p with heap := p.heap.pushAll (deadlines now upcomingBlockIds) }

def stop (p : PrefetchScheduler ν π) : PrefetchScheduler ν π := { p with stopped := true }

/-- The locked part of `_consume`, once there is something to pop. -/
def take (p : PrefetchScheduler ν π) : Option (Hint × PrefetchScheduler ν π) :=
  if p.stopped then none
  else p.heap.pop.map fun (hint, heap) =>
    (hint, { p with heap := heap, consumer := .reading (ofLex hint).2 })

/-- The rest of a turn of `_consume`: an exception of the read is dropped. -/
def prefetch (codec : BlockCodec ν π) (p : PrefetchScheduler ν π) (blockId : Int) :
    Part (Except TieredFault ν × PrefetchScheduler ν π) :=
  (p.tieredCache.read codec (p.layerId, blockId)).map fun (res, tieredCache) =>
    (res, { p with tieredCache := tieredCache, consumer := .waiting })

/-- One step of a client or of the consumer. A wait that times out is no step. -/
inductive Step (codec : BlockCodec ν π) :
    PrefetchScheduler ν π → PrefetchEvent ν → PrefetchScheduler ν π → Prop
  | hint (p : PrefetchScheduler ν π) (now : Int) (upcomingBlockIds : List Int) :
      Step codec p (.hint now upcomingBlockIds) (p.hint now upcomingBlockIds)
  | stop (p : PrefetchScheduler ν π) : Step codec p .stop p.stop
  | take {p p' : PrefetchScheduler ν π} {hint : Hint} (idle : p.consumer = .waiting)
      (taken : p.take = some (hint, p')) : Step codec p (.take hint) p'
  | prefetch {p p' : PrefetchScheduler ν π} {blockId : Int} {res : Except TieredFault ν}
      (inHand : p.consumer = .reading blockId) (read : (res, p') ∈ p.prefetch codec blockId) :
      Step codec p (.prefetch blockId res) p'
  | finish {p : PrefetchScheduler ν π} (idle : p.consumer = .waiting) (stopped : p.stopped = true) :
      Step codec p .finish { p with consumer := .finished }
  | call {p : PrefetchScheduler ν π} {call : TieredCall ν} {tieredCache : TieredKVCache ν π}
      (returns : tieredCache ∈ call.apply codec p.tieredCache) :
      Step codec p (.call call) { p with tieredCache := tieredCache }

end PrefetchScheduler

/-! ### What a run has done -/

namespace PrefetchEvent
variable {ν : Type}

/-- What the step does to the heap. -/
def uses : PrefetchEvent ν → List (PriorityQueue.Use Hint)
  | .hint now upcomingBlockIds =>
    (PrefetchScheduler.deadlines now upcomingBlockIds).map .push
  | .take entry => [.pop entry]
  | _ => []

def prefetched? : PrefetchEvent ν → Option Int
  | .prefetch blockId _ => some blockId
  | _ => none

def call? : PrefetchEvent ν → Option (TieredCall ν)
  | .call made => some made
  | _ => none

/-- The uses of the heap in the run. -/
def heapLog (events : List (PrefetchEvent ν)) : List (PriorityQueue.Use Hint) :=
  events.flatMap uses

def hinted (events : List (PrefetchEvent ν)) : List Hint :=
  (heapLog events).filterMap PriorityQueue.Use.pushed?

def taken (events : List (PrefetchEvent ν)) : List Hint :=
  (heapLog events).filterMap PriorityQueue.Use.popped?

/-- The blocks that the consumer has read, in order. -/
def prefetched (events : List (PrefetchEvent ν)) : List Int := events.filterMap prefetched?

/-- The calls of the clients. -/
def calls (events : List (PrefetchEvent ν)) : List (TieredCall ν) := events.filterMap call?

variable (events : List (PrefetchEvent ν)) (event : PrefetchEvent ν)

theorem heapLog_concat : heapLog (events ++ [event]) = heapLog events ++ event.uses := by
  rw [heapLog, heapLog, List.flatMap_append, List.flatMap_singleton]

/-- A step that does nothing to the heap. -/
theorem heapLog_quiet (h : event.uses = []) : heapLog (events ++ [event]) = heapLog events := by
  rw [heapLog_concat, h, List.append_nil]

theorem taken_concat :
    taken (events ++ [event]) =
      taken events ++ event.uses.filterMap PriorityQueue.Use.popped? := by
  rw [taken, heapLog_concat, List.filterMap_append]
  rfl

theorem prefetched_concat :
    prefetched (events ++ [event]) = prefetched events ++ event.prefetched?.toList := by
  rw [prefetched, List.filterMap_append]
  cases event <;> rfl

/-- A hint pops nothing. -/
theorem popped_pushes (l : List Hint) :
    (l.map PriorityQueue.Use.push).filterMap PriorityQueue.Use.popped? = [] := by
  induction l with
  | nil => rfl
  | cons x l ih => exact ih

end PrefetchEvent

/-! ### Every interleaving -/

namespace PrefetchScheduler
open PrefetchEvent
variable {ν π : Type} {codec : BlockCodec ν π} {p p' : PrefetchScheduler ν π}

/-- What the run has left in the heap and in hand. -/
structure Served (events : List (PrefetchEvent ν)) (p : PrefetchScheduler ν π) : Prop where
  orderly : PriorityQueue.Orderly (heapLog events)
  pending : (p.heap.items : Multiset Hint) = PriorityQueue.pending (heapLog events)
  inOrder : (taken events).map (fun hint => (ofLex hint).2) =
    prefetched events ++ p.consumer.inHand
  stopped : ∀ before after, events = before ++ .stop :: after →
    p.stopped = true ∧ taken after = [] ∧
      (prefetched after).length + p.consumer.inHand.length ≤ 1

theorem served_new (tieredCache : TieredKVCache ν π) (layerId : Int) :
    Served [] (new tieredCache layerId) where
  orderly := PriorityQueue.orderly_nil
  pending := rfl
  inOrder := rfl
  stopped := by
    intro before after h
    exact absurd h.symm (List.append_ne_nil_of_right_ne_nil before (List.cons_ne_nil _ after))

theorem take_eq_some {hint : Hint} (h : p.take = some (hint, p')) :
    p.stopped = false ∧ ∃ heap, p.heap.pop = some (hint, heap) ∧
      p' = { p with heap := heap, consumer := .reading (ofLex hint).2 } := by
  unfold take at h
  split at h
  · cases h
  · next hrun =>
    obtain ⟨⟨x, heap⟩, hpop, heq⟩ := Option.map_eq_some_iff.mp h
    cases heq
    exact ⟨by simpa using hrun, heap, hpop, rfl⟩

/-- A stop in a longer run is its last step or a stop of the run before. -/
theorem stop_of_concat {events before after : List (PrefetchEvent ν)} {event : PrefetchEvent ν}
    (h : events ++ [event] = before ++ .stop :: after) :
    (event = .stop ∧ after = []) ∨
      ∃ after', after = after' ++ [event] ∧ events = before ++ .stop :: after' := by
  cases after using List.reverseRecOn with
  | nil =>
    obtain ⟨-, hlist⟩ := List.append_inj' h rfl
    exact Or.inl ⟨(List.cons.inj hlist).1, rfl⟩
  | append_singleton after last =>
    rw [← List.cons_append, ← List.append_assoc] at h
    obtain ⟨hinit, hlast⟩ := List.append_inj' h rfl
    cases (List.cons.inj hlast).1
    exact Or.inr ⟨after, rfl, hinit⟩

/-- A step that neither takes nor reads leaves what has been taken and read as it is. -/
theorem Served.other {events : List (PrefetchEvent ν)} {event : PrefetchEvent ν}
    (h : Served events p) (huses : event.uses.filterMap PriorityQueue.Use.popped? = [])
    (hread : event.prefetched? = none) (hconsumer : p'.consumer.inHand = p.consumer.inHand)
    (hstopped : p.stopped = true → p'.stopped = true) (hstop : event = .stop → p'.stopped = true)
    (horderly : PriorityQueue.Orderly (heapLog (events ++ [event])))
    (hpending : (p'.heap.items : Multiset Hint) =
      PriorityQueue.pending (heapLog (events ++ [event]))) :
    Served (events ++ [event]) p' where
  orderly := horderly
  pending := hpending
  inOrder := by
    rw [taken_concat, prefetched_concat, huses, hread, List.append_nil, Option.toList_none,
      List.append_nil, hconsumer]
    exact h.inOrder
  stopped := by
    intro before after heq
    rw [hconsumer]
    cases stop_of_concat heq with
    | inl hlast =>
      obtain ⟨hev, rfl⟩ := hlast
      refine ⟨hstop hev, rfl, ?_⟩
      cases p.consumer <;> simp [Consumer.inHand, prefetched]
    | inr hbefore =>
      obtain ⟨after', rfl, hevents⟩ := hbefore
      obtain ⟨hs, htaken, hlen⟩ := h.stopped before after' hevents
      refine ⟨hstopped hs, ?_, ?_⟩
      · rw [taken_concat, huses, htaken]
        rfl
      · rw [prefetched_concat, hread, Option.toList_none, List.append_nil]
        exact hlen

theorem Served.quiet {events : List (PrefetchEvent ν)} {event : PrefetchEvent ν}
    (h : Served events p) (huses : event.uses = []) (hread : event.prefetched? = none)
    (hheap : p'.heap = p.heap) (hconsumer : p'.consumer.inHand = p.consumer.inHand)
    (hstopped : p.stopped = true → p'.stopped = true) (hstop : event = .stop → p'.stopped = true) :
    Served (events ++ [event]) p' := by
  have hpopped : event.uses.filterMap PriorityQueue.Use.popped? = [] := by
    rw [huses]
    rfl
  refine h.other hpopped hread hconsumer hstopped hstop ?_ ?_
  · rw [heapLog_quiet events _ huses]
    exact h.orderly
  · rw [heapLog_quiet events _ huses, hheap]
    exact h.pending

theorem Served.step {events : List (PrefetchEvent ν)} {event : PrefetchEvent ν}
    (h : Served events p) (hs : Step codec p event p') : Served (events ++ [event]) p' := by
  cases hs with
  | hint now ids =>
    refine h.other (popped_pushes _) rfl rfl id (fun hno => by cases hno) ?_ ?_
    · rw [heapLog_concat]
      exact h.orderly.pushes _
    · rw [heapLog_concat, PrefetchEvent.uses, PriorityQueue.pending_pushes, ← h.pending]
      exact PriorityQueue.coe_pushAll p.heap _
  | stop => exact h.quiet rfl rfl rfl rfl (fun _ => rfl) fun _ => rfl
  | finish idle stopped =>
    refine h.quiet rfl rfl rfl ?_ id fun hno => by cases hno
    rw [idle]
    rfl
  | call returns => exact h.quiet rfl rfl rfl rfl id fun hno => by cases hno
  | @take _ hint idle taken =>
    obtain ⟨hrun, heap, hpop, rfl⟩ := take_eq_some taken
    have hitems := PriorityQueue.items_of_pop hpop
    have hpending :
        PriorityQueue.pending (heapLog events) = hint ::ₘ (heap.items : Multiset Hint) := by
      rw [← h.pending, hitems, Multiset.cons_coe]
    refine ⟨?_, ?_, ?_, ?_⟩
    · rw [heapLog_concat]
      refine h.orderly.pop ?_ fun y hy => ?_
      · rw [hpending]
        exact Multiset.mem_cons_self hint _
      · rw [← h.pending] at hy
        exact PriorityQueue.least_of_pop hpop y hy
    · rw [heapLog_concat, PrefetchEvent.uses, PriorityQueue.pending_concat, hpending,
        PriorityQueue.Use.record, Multiset.erase_cons_head]
    · have hhand : p.consumer.inHand = [] := by
        rw [idle]
        rfl
      have hin := h.inOrder
      rw [hhand, List.append_nil] at hin
      rw [taken_concat, prefetched_concat, List.map_append, hin]
      exact congrArg (· ++ _) (List.append_nil _).symm
    · intro before after heq
      cases stop_of_concat heq with
      | inl hlast => cases hlast.1
      | inr hbefore =>
        obtain ⟨after', -, hevents⟩ := hbefore
        have hstopped := (h.stopped before after' hevents).1
        rw [hrun] at hstopped
        cases hstopped
  | @prefetch _ blockId res inHand read =>
    obtain ⟨⟨r, tieredCache⟩, hr, heq⟩ := (Part.mem_map_iff _).mp read
    cases heq
    refine ⟨?_, ?_, ?_, ?_⟩
    · rw [heapLog_quiet events _ rfl]
      exact h.orderly
    · rw [heapLog_quiet events _ rfl]
      exact h.pending
    · have hin := h.inOrder
      rw [inHand] at hin
      have htaken : taken (events ++ [.prefetch blockId res]) = taken events :=
        (taken_concat events _).trans (List.append_nil _)
      rw [htaken, prefetched_concat, hin]
      exact (List.append_nil _).symm
    · intro before after heq
      cases stop_of_concat heq with
      | inl hlast => cases hlast.1
      | inr hbefore =>
        obtain ⟨after', rfl, hevents⟩ := hbefore
        obtain ⟨hs, htaken, hlen⟩ := h.stopped before after' hevents
        rw [inHand] at hlen
        refine ⟨hs, ?_, ?_⟩
        · rw [taken_concat, htaken]
          rfl
        · rw [prefetched_concat, List.length_append]
          exact hlen

theorem served_run {tieredCache : TieredKVCache ν π} {layerId : Int}
    {events : List (PrefetchEvent ν)}
    (h : Calls.Run (Step codec) (new tieredCache layerId) events p) : Served events p := by
  induction h with
  | start => exact served_new tieredCache layerId
  | call _ step ih => exact ih.step step

/-- In every interleaving the consumer takes the hint with the least deadline of those that are
pending, takes every hint at most once and reads the blocks in the order in which it takes them;
after `stop` it takes no more, and reads at most the block that it has taken already. -/
theorem hints_served_in_order {tieredCache : TieredKVCache ν π} {layerId : Int}
    {events : List (PrefetchEvent ν)}
    (h : Calls.Run (Step codec) (new tieredCache layerId) events p) :
    PriorityQueue.Orderly (heapLog events) ∧
    (hinted events : Multiset Hint) = taken events + p.heap.items ∧
    (taken events).map (fun hint => (ofLex hint).2) = prefetched events ++ p.consumer.inHand ∧
    ∀ before after, events = before ++ .stop :: after →
      taken after = [] ∧ (prefetched after).length + p.consumer.inHand.length ≤ 1 := by
  have hserved := served_run h
  refine ⟨hserved.orderly, ?_, hserved.inOrder, fun before after heq => ?_⟩
  · rw [hserved.pending]
    exact hserved.orderly.conserved
  · exact (hserved.stopped before after heq).2

def oneRow : KVTensor where
  outer := [1]
  width := 1
  dtype := "torch.float32"
  rows := [[1]]
  width_pos := by decide
  length_rows := rfl
  length_row := by decide

/-- Elements of four bytes that are cast exactly. -/
def exactCodec : BlockCodec KVTensor CompressedBlock :=
  Compression.codec (fun _ => id) (fun _ => 4) fun _ => 0

/-- Hints for two blocks, one of them twice; the later batch has the earlier deadline. -/
def fourHints : List (PrefetchEvent KVTensor) :=
  [.call (.access (.write (0, 7) oneRow)), .hint 5 [9, 7], .hint 2 [7], .take (toLex (2, 7)),
    .hint 1 [4], .prefetch 7 (.ok oneRow), .stop, .finish]

theorem fourHints_run : ∃ p after, Calls.Run (Step exactCodec) (new (TieredKVCache.new 4 4) 0)
    fourHints p ∧ (.ok oneRow, after) ∈ p.tieredCache.read exactCodec (0, 7) := by
  let cache : TieredKVCache KVTensor CompressedBlock :=
    (TieredKVCache.new 4 4).write exactCodec (0, 7) oneRow
  have hread : (.ok oneRow, cache.touch .gpu (0, 7)) ∈ cache.read exactCodec (0, 7) := by
    rw [TieredKVCache.read_of_gpu (show cache.gpuStore.get? (0, 7) = some oneRow from rfl)]
    exact Part.mem_some _
  have hcons := @Calls.run_cons_iff _ _ (Step exactCodec)
  refine ⟨_, (cache.touch .gpu (0, 7)).touch .gpu (0, 7),
    hcons.mpr ⟨_, .call (Part.mem_some cache),
    hcons.mpr ⟨_, .hint _ 5 [9, 7],
    hcons.mpr ⟨_, .hint _ 2 [7],
    hcons.mpr ⟨_, .take rfl rfl,
    hcons.mpr ⟨_, .hint _ 1 [4],
    hcons.mpr ⟨_, .prefetch rfl ((Part.mem_map_iff _).mpr ⟨_, hread, rfl⟩),
    hcons.mpr ⟨_, .stop _,
    hcons.mpr ⟨_, .finish rfl rfl, .start⟩⟩⟩⟩⟩⟩⟩⟩, ?_⟩
  have hheld : (cache.touch .gpu (0, 7)).gpuStore.get? (0, 7) = some oneRow := rfl
  rw [show PrefetchScheduler.tieredCache _ = cache.touch .gpu (0, 7) from rfl,
    TieredKVCache.read_of_gpu hheld]
  exact Part.mem_some _

theorem four_hints_in_order : ∃ p, Calls.Run (Step exactCodec)
      (new (TieredKVCache.new 4 4) 0) fourHints p ∧
    PriorityQueue.Orderly (heapLog fourHints) := by
  obtain ⟨p, _, hrun, _⟩ := fourHints_run
  exact ⟨p, hrun, (hints_served_in_order hrun).1⟩

/-! ### The clients' reads -/

variable {good : ν → Prop} {loaded : ν → ν}

variable {key : BlockKey}

end PrefetchScheduler
end ResidentInference
