import ResidentInference.State

/-! The paged KV cache: pages, page table and LRU order, and the operations on them.
An operation that can raise returns its result beside the cache it leaves behind. -/
namespace ResidentInference

structure KVPage where
  pageId : Nat
  requestId : Int
  layerId : Int
  tokenStart : Int
  tokenCount : Int
  pinned : Bool := false
  isCommitted : Bool := false
  isDraft : Bool := false
  score : Int := 0
  selected : Bool := false
  lastSelectedStep : Int := -1
  sparseRank : Int := -1
  deriving DecidableEq

namespace KVPage

def key (page : KVPage) : Int × Int := (page.requestId, page.layerId)

def commit (page : KVPage) : KVPage := { page with isCommitted := true, isDraft := false }

def markDraft (page : KVPage) : KVPage :=
  if page.isCommitted then page else { page with isDraft := true }

def acceptDraft (page : KVPage) : KVPage := if page.isDraft then page.commit else page

def setPinned (b : Bool) (page : KVPage) : KVPage := { page with pinned := b }

end KVPage

structure KVCache where
  pageSize : Int
  maxPages : Int
  config : Option RuntimeConfig
  nextPageId : Nat
  pages : Dict Nat KVPage
  pageTable : Dict (Int × Int) (List Nat)
  lru : Dict Nat Unit
  evictionCount : Int
  accessCount : Int
  hitCount : Int
  totalLiveKvBytes : Int
  pinnedKvBytes : Int
  evictedKvBytes : Int
  totalCapacityTokens : Int
  usedCapacityTokens : Int

namespace KVCache

/-- The empty cache that the constructor builds. -/
def new (pageSize maxPages : Int) (config : Option RuntimeConfig) : KVCache where
  pageSize := pageSize
  maxPages := maxPages
  config := config
  nextPageId := 0
  pages := Dict.empty
  pageTable := Dict.empty
  lru := Dict.empty
  evictionCount := 0
  accessCount := 0
  hitCount := 0
  totalLiveKvBytes := 0
  pinnedKvBytes := 0
  evictedKvBytes := 0
  totalCapacityTokens := 0
  usedCapacityTokens := 0

def bytesPerTokenPerLayer (c : KVCache) : Int :=
  match c.config with
  | some config => config.bytesPerTokenPerLayer
  | none => 12 * 64 * 2 * 2

def bytesPerPage (c : KVCache) : Int := c.pageSize * c.bytesPerTokenPerLayer

def pageBytes (c : KVCache) (page : KVPage) : Int := page.tokenCount * c.bytesPerTokenPerLayer

/-- The pages mapped to one request/layer pair, `[]` when the pair has no entry. -/
def pageIdsFor (c : KVCache) (key : Int × Int) : List Nat := (c.pageTable.get? key).getD []

def requiredPages (c : KVCache) (tokenCount : Int) : Int :=
  if tokenCount ≤ 0 then 0 else ceilDiv tokenCount c.pageSize

def pagesNeededForLayer (c : KVCache) (r : RequestState) (total : Int) (layer : Int) : Int :=
  max (c.requiredPages total - (c.pageIdsFor (r.requestId, layer)).length) 0

/-- The pages that the layers of the request miss, summed over the layers. -/
def neededPages (c : KVCache) (r : RequestState) (total : Int) : Int :=
  (r.layerIds.map (c.pagesNeededForLayer r total)).sum

/-- With a page size of zero the division inside `requiredPages` raises as soon as there is a
layer and a token to place. -/
def pagesNeeded (c : KVCache) (r : RequestState) (total : Int) : Except Fault Int :=
  if c.pageSize = 0 ∧ 0 < total ∧ r.layerIds ≠ [] then .error .zeroDivision
  else .ok (c.neededPages r total)

def freePages (c : KVCache) : Int := c.maxPages - c.pages.size

def evictablePages (c : KVCache) : Nat := c.pages.values.countP fun page => !page.pinned

def canAllocate (c : KVCache) (r : RequestState) (numNewTokens : Int) : Except Fault Bool := do
  let needed ← c.pagesNeeded r (r.currentTokens + numNewTokens)
  if needed = 0 then return true
  return decide (c.freePages + c.evictablePages ≥ needed)

/-! ### Removing pages -/

/-- The accounting that every removal of a page makes. -/
def unaccount (c : KVCache) (page : KVPage) : KVCache :=
  { c with
    totalLiveKvBytes := c.totalLiveKvBytes - c.pageBytes page
    usedCapacityTokens := c.usedCapacityTokens - page.tokenCount
    totalCapacityTokens := c.totalCapacityTokens - c.pageSize
    pinnedKvBytes := if page.pinned then c.pinnedKvBytes - c.pageBytes page else c.pinnedKvBytes }

/-- Take a page out of the pages and the LRU order. -/
def dropPage (c : KVCache) (pid : Nat) : KVCache :=
  match c.pages.get? pid with
  | none => { c with lru := c.lru.erase pid }
  | some page =>
    { c with pages := c.pages.erase pid, lru := c.lru.erase pid }.unaccount page

/-- Take a page id out of its list in the page table; an emptied list is removed. -/
def unlinkPage (c : KVCache) (key : Int × Int) (pid : Nat) : KVCache :=
  let ids := c.pageIdsFor key
  if pid ∈ ids then
    if ids.erase pid = [] then { c with pageTable := c.pageTable.erase key }
    else { c with pageTable := c.pageTable.set key (ids.erase pid) }
  else c

/-- The source raises `KeyError` for an id that is not live; its only caller takes the ids
from the LRU order, whose keys are the live pages. -/
def evictSinglePage (c : KVCache) (pid : Nat) : KVCache :=
  match c.pages.get? pid with
  | none => c
  | some page =>
    let c' := (c.unlinkPage page.key pid).dropPage pid
    { c' with
      evictedKvBytes := c'.evictedKvBytes + c.pageBytes page
      evictionCount := c'.evictionCount + 1 }

/-- One pass of `evictLru` over a copy of the LRU keys: the first pass takes draft pages,
the second the others; both stop when `n` pages have been evicted. -/
def evictPass (draft : Bool) (n : Int) : List Nat → KVCache × List Nat → KVCache × List Nat
  | [], s => s
  | pid :: rest, (c, evicted) =>
    if n ≤ evicted.length then (c, evicted)
    else match c.pages.get? pid with
      | none => evictPass draft n rest (c, evicted)
      | some page =>
        if page.pinned || page.isDraft != draft then evictPass draft n rest (c, evicted)
        else evictPass draft n rest (c.evictSinglePage pid, evicted ++ [pid])

def evictLru (c : KVCache) (n : Int) : KVCache × List Nat :=
  let s := evictPass true n c.lru.keys (c, [])
  evictPass false n s.1.lru.keys s

/-- The eviction that `ensureCapacity` and `allocateForRequest` begin with. -/
def makeRoom (c : KVCache) (needed : Int) : KVCache :=
  let deficit := max (needed - c.freePages) 0
  if 0 < deficit then (c.evictLru deficit).1 else c

def ensureCapacity (c : KVCache) (r : RequestState) (numNewTokens : Int) :
    Except Fault Unit × KVCache :=
  match c.pagesNeeded r (r.currentTokens + numNewTokens) with
  | .error e => (.error e, c)
  | .ok needed =>
    let c := c.makeRoom needed
    match c.canAllocate r numNewTokens with
    | .error e => (.error e, c)
    | .ok true => (.ok (), c)
    | .ok false => (.error .kvCannotAllocate, c)

/-! ### Allocation -/

def allocateOnePage (c : KVCache) (requestId layerId tokenStart tokenCount : Int)
    (pinned : Bool) (isCommitted : Bool := false) (isDraft : Bool := false) : Nat × KVCache :=
  let pid := c.nextPageId
  let page : KVPage :=
    { pageId := pid, requestId, layerId, tokenStart, tokenCount, pinned, isCommitted, isDraft }
  (pid,
    { c with
      nextPageId := pid + 1
      pages := c.pages.set pid page
      lru := (c.lru.set pid ()).moveToEnd pid
      pageTable :=
        c.pageTable.set (requestId, layerId) (c.pageIdsFor (requestId, layerId) ++ [pid])
      totalLiveKvBytes := c.totalLiveKvBytes + c.pageBytes page
      usedCapacityTokens := c.usedCapacityTokens + tokenCount
      totalCapacityTokens := c.totalCapacityTokens + c.pageSize
      pinnedKvBytes := if pinned then c.pinnedKvBytes + c.pageBytes page else c.pinnedKvBytes })

/-- The inner loop of `allocateForRequest`: that many pages from `tokenStart` on. -/
def allocatePages (requestId layerId total : Int) (pinned : Bool) :
    Nat → Int → KVCache → List Nat → KVCache × List Nat
  | 0, _, c, pageIds => (c, pageIds)
  | n+1, tokenStart, c, pageIds =>
    let tokenCount := min c.pageSize (total - tokenStart)
    let (pid, c') := c.allocateOnePage requestId layerId tokenStart tokenCount pinned
    allocatePages requestId layerId total pinned n (tokenStart + tokenCount) c' (pageIds ++ [pid])

def allocateLayer (c : KVCache) (requestId total : Int) (pinned : Bool) (layer : Int) :
    KVCache × List Nat :=
  let pageIds := c.pageIdsFor (requestId, layer)
  let existingCapacity := pageIds.length * c.pageSize
  if existingCapacity < total then
    let pagesNeeded := (ceilDiv (total - existingCapacity) c.pageSize).toNat
    allocatePages requestId layer total pinned pagesNeeded existingCapacity c pageIds
  else (c, pageIds)

def allocateLayers (requestId total : Int) (pinned : Bool) :
    List Int → KVCache → LayerPageMap → KVCache × LayerPageMap
  | [], c, layerPageMap => (c, layerPageMap)
  | layer :: layers, c, layerPageMap =>
    let (c', pageIds) := c.allocateLayer requestId total pinned layer
    allocateLayers requestId total pinned layers c' (layerPageMap.set layer pageIds)

def allocateForRequest (c : KVCache) (r : RequestState) (total : Int) (pinned : Bool) :
    Except Fault LayerPageMap × KVCache :=
  match c.pagesNeeded r total with
  | .error e => (.error e, c)
  | .ok needed =>
    let c := c.makeRoom needed
    if c.freePages < needed then (.error .kvCannotAllocate, c)
    else
      let (c', layerPageMap) := allocateLayers r.requestId total pinned r.layerIds c Dict.empty
      (.ok layerPageMap, c')

/-! ### Page flags -/

def updatePage (f : KVPage → KVPage) (c : KVCache) (pid : Nat) : KVCache :=
  { c with pages := c.pages.modify pid f }

/-- Update every page that the table lists for the request, layer by layer. -/
def updateListed (f : KVPage → KVPage) (c : KVCache) (requestId : Int) (layers : List Int) :
    KVCache :=
  layers.foldl (fun c layer => (c.pageIdsFor (requestId, layer)).foldl (updatePage f) c) c

def commitTokens (c : KVCache) (r : RequestState) (numNewTokens : Int) (pin : Bool := true) :
    Except Fault LayerPageMap × KVCache :=
  match c.allocateForRequest r (r.currentTokens + numNewTokens) pin with
  | (.error e, c) => (.error e, c)
  | (.ok layerPageMap, c) =>
    (.ok layerPageMap, updateListed KVPage.commit c r.requestId r.layerIds)

def allocateDraftPages (c : KVCache) (r : RequestState) (numNewTokens : Int) :
    Except Fault LayerPageMap × KVCache :=
  match c.allocateForRequest r (r.currentTokens + numNewTokens) true with
  | (.error e, c) => (.error e, c)
  | (.ok layerPageMap, c) =>
    (.ok layerPageMap, updateListed KVPage.markDraft c r.requestId r.layerIds)

def acceptDraftPages (c : KVCache) (requestId : Int) (layers : List Int) : KVCache :=
  updateListed KVPage.acceptDraft c requestId layers

/-- Take a page id out of the list of `key`, which may leave the list empty. -/
def delistPage (c : KVCache) (key : Int × Int) (pid : Nat) : KVCache :=
  let ids := c.pageIdsFor key
  if pid ∈ ids then { c with pageTable := c.pageTable.set key (ids.erase pid) } else c

def releaseDraftPage (key : Int × Int) (c : KVCache) (pid : Nat) : KVCache :=
  (c.delistPage key pid).dropPage pid

def popIfEmpty (c : KVCache) (key : Int × Int) : KVCache :=
  if c.pageIdsFor key = [] then { c with pageTable := c.pageTable.erase key } else c

def isDraftPage (c : KVCache) (pid : Nat) : Bool :=
  match c.pages.get? pid with
  | none => false
  | some page => page.isDraft

def releaseDraftLayer (requestId : Int) (c : KVCache) (layer : Int) : KVCache :=
  let key := (requestId, layer)
  let toRemove := (c.pageIdsFor key).filter c.isDraftPage
  (toRemove.foldl (releaseDraftPage key) c).popIfEmpty key

def releaseDraftPages (c : KVCache) (requestId : Int) (layers : List Int) : KVCache :=
  layers.foldl (releaseDraftLayer requestId) c

/-! ### Pins, touches, release -/

def pinPage (c : KVCache) (pid : Nat) : KVCache :=
  match c.pages.get? pid with
  | none => c
  | some page =>
    if page.pinned then c
    else
      { c with
        pages := c.pages.modify pid (KVPage.setPinned true)
        pinnedKvBytes := c.pinnedKvBytes + c.pageBytes page }

def pinPages (c : KVCache) (pageIds : List Nat) : KVCache := pageIds.foldl pinPage c

def unpinPage (c : KVCache) (pid : Nat) : KVCache :=
  match c.pages.get? pid with
  | none => c
  | some page =>
    if page.pinned then
      { c with
        pages := c.pages.modify pid (KVPage.setPinned false)
        pinnedKvBytes := c.pinnedKvBytes - c.pageBytes page }
    else c

def unpinPages (c : KVCache) (pageIds : List Nat) : KVCache := pageIds.foldl unpinPage c

def touchPage (c : KVCache) (pid : Nat) : KVCache :=
  match c.pages.get? pid with
  | none => { c with accessCount := c.accessCount + 1 }
  | some _ =>
    { c with
      accessCount := c.accessCount + 1
      hitCount := c.hitCount + 1
      lru := c.lru.moveToEnd pid }

def touchPages (c : KVCache) (pageIds : List Nat) : KVCache := pageIds.foldl touchPage c

/-- Take a key out of the page table together with all the pages it lists. -/
def releaseKey (c : KVCache) (key : Int × Int) : KVCache :=
  (c.pageIdsFor key).foldl dropPage { c with pageTable := c.pageTable.erase key }

/-- The pages of the request are gone, the counters not yet clamped. -/
def releaseKeys (c : KVCache) (requestId : Int) : KVCache :=
  (c.pageTable.keys.filter fun key => decide (key.1 = requestId)).foldl releaseKey c

def clampCounters (c : KVCache) : KVCache :=
  { c with
    totalLiveKvBytes := if c.totalLiveKvBytes < 0 then 0 else c.totalLiveKvBytes
    pinnedKvBytes := if c.pinnedKvBytes < 0 then 0 else c.pinnedKvBytes
    usedCapacityTokens := if c.usedCapacityTokens < 0 then 0 else c.usedCapacityTokens
    totalCapacityTokens := if c.totalCapacityTokens < 0 then 0 else c.totalCapacityTokens }

def releaseRequest (c : KVCache) (requestId : Int) : KVCache :=
  (c.releaseKeys requestId).clampCounters

/-! ### Queries -/

/-- The ids listed for a request over its layers, in the order of the page table. -/
def listedIds (c : KVCache) (requestId : Int) : List Nat :=
  c.pageTable.items.flatMap fun entry => if entry.1.1 = requestId then entry.2 else []

def pagesForRequest (c : KVCache) (requestId : Int) : List KVPage :=
  (c.listedIds requestId).filterMap c.pages.get?

/-- Whether the live pages exceed 85% of `maxPages`; `rnd` rounds as the source's doubles do. -/
def isUnderPressure (c : KVCache) (rnd : ℚ → ℚ) : Bool :=
  decide (rnd (c.maxPages * rnd (17 / 20)) < c.pages.size)

def hasSnapshot (c : KVCache) (r : RequestState) : Bool :=
  match r.kvSnapshot with
  | none => false
  | some _ => r.kvPageIds.all fun pid => c.pages.contains pid

def pagePositions (c : KVCache) (pid : Nat) : List Int :=
  match c.pages.get? pid with
  | none => []
  | some page => intRange page.tokenStart (page.tokenStart + page.tokenCount)

/-- The positions covered by the first page list of the request. -/
def positionsFor (c : KVCache) (requestId : Int) : List Int :=
  match c.pageTable.items.find? fun entry => decide (entry.1.1 = requestId) with
  | none => []
  | some entry => entry.2.flatMap c.pagePositions

end KVCache

/-- One call of an operation of the cache with its arguments. -/
inductive KVOp where
  | allocateForRequest (r : RequestState) (total : Int) (pinned : Bool)
  | commitTokens (r : RequestState) (numNewTokens : Int) (pin : Bool)
  | allocateDraftPages (r : RequestState) (numNewTokens : Int)
  | acceptDraftPages (requestId : Int) (layers : List Int)
  | releaseDraftPages (requestId : Int) (layers : List Int)
  | releaseRequest (requestId : Int)
  | evictLru (n : Int)
  | ensureCapacity (r : RequestState) (numNewTokens : Int)
  | pinPages (pageIds : List Nat)
  | unpinPages (pageIds : List Nat)
  | touchPages (pageIds : List Nat)

/-- The exception that the call raises, if any, and the cache it leaves behind. -/
def KVOp.apply (c : KVCache) : KVOp → Option Fault × KVCache
  | .allocateForRequest r total pinned => raised (c.allocateForRequest r total pinned)
  | .commitTokens r n pin => raised (c.commitTokens r n pin)
  | .allocateDraftPages r n => raised (c.allocateDraftPages r n)
  | .acceptDraftPages requestId layers => (none, c.acceptDraftPages requestId layers)
  | .releaseDraftPages requestId layers => (none, c.releaseDraftPages requestId layers)
  | .releaseRequest requestId => (none, c.releaseRequest requestId)
  | .evictLru n => (none, (c.evictLru n).1)
  | .ensureCapacity r n => raised (c.ensureCapacity r n)
  | .pinPages pageIds => (none, c.pinPages pageIds)
  | .unpinPages pageIds => (none, c.unpinPages pageIds)
  | .touchPages pageIds => (none, c.touchPages pageIds)
where
  raised {α : Type} : Except Fault α × KVCache → Option Fault × KVCache
    | (.error e, c) => (some e, c)
    | (.ok _, c) => (none, c)

/-- A sequence of calls; a call that raises does not stop the sequence. -/
def KVCache.runOps (c : KVCache) (ops : List KVOp) : KVCache :=
  ops.foldl (fun c op => (op.apply c).2) c

end ResidentInference
