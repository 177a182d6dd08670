import ResidentInference.SparseKV

/-! The calls that reach the cache: its own operations and the sparse selections that mark its
pages. Every sequence of them keeps the representation invariant. -/
namespace ResidentInference

inductive CacheCall where
  | operation (op : KVOp)
  | select (config : RuntimeConfig) (r : RequestState) (decodeStep : Int)

/-- The exception that the call raises, if any, and the cache it leaves behind. -/
def CacheCall.apply (c : KVCache) : CacheCall → Option Fault × KVCache
  | .operation op => op.apply c
  | .select config r decodeStep => (none, (c.select config r decodeStep).2)

namespace KVCache
variable {c : KVCache}

/-- A sequence of calls; a call that raises does not stop the sequence. -/
def runCalls (c : KVCache) (calls : List CacheCall) : KVCache :=
  calls.foldl (fun c call => (call.apply c).2) c

theorem Rep.applyCall (h : Inv c) (call : CacheCall) : Inv (call.apply c).2 := by
  cases call with
  | operation op => exact h.apply op
  | select config r decodeStep => exact h.markSelection config r decodeStep

theorem inv_runCalls (pageSize maxPages : Int) (config : Option RuntimeConfig)
    (calls : List CacheCall) : Inv ((new pageSize maxPages config).runCalls calls) :=
  List.foldlRecOn calls _ (inv_new pageSize maxPages config) fun _ hc call _ => hc.applyCall call

end KVCache
end ResidentInference
