import VDLinux.Base.CarryChain

namespace VDLinux.Mm.Swap

open Base.CarryChain

abbrev Byte := BitVec 8

def swapMapMax : Byte := 0x3e

def swapMapBad : Byte := 0x3f

def swapHasCache : Byte := 0x40

def swapContMax : Byte := 0x7f

def countContinued : Byte := 0x80

def swapMapShmem : Byte := 0xbf

def pageSize : ℕ := 4096

/-- A continuation page, by the offset in the page. Its bytes are what the allocator left in them. -/
abbrev ContPage := ℕ → Byte

/-- What `struct page` says of a page of the swap map: `page_private` is `SWP_CONTINUED` or 0, and only
in the first case has `lru` been initialised. -/
structure Head where
  continued : Bool
  lru : List ContPage

/-- One swap area. `head` is `vmalloc_to_page`, by the number of the page. -/
structure SwapInfo where
  max : ℕ
  pages : ℕ
  swapMap : ℕ → Byte
  head : ℕ → Head
  lowestBit : ℕ
  highestBit : ℕ
  inusePages : ℕ
  nrSwapPages : ℤ

/-- The checks that stop the machine, and the walk of an empty list, which would take the page of the
swap map for a continuation page. -/
inductive Bug where
  | notContinued
  | emptyList
  | listEnds
  | notBorrowing
  | emptyDigit
  deriving DecidableEq

inductive Ret where
  | ok
  | einval
  | eexist
  | enoent
  | enomem
  deriving DecidableEq

def SwapInfo.setMap (si : SwapInfo) (offset : ℕ) (usage : Byte) : SwapInfo :=
  { si with swapMap := Function.update si.swapMap offset usage }

/-- The page of the swap map that holds `offset`, with these continuation pages. -/
def SwapInfo.setLru (si : SwapInfo) (offset : ℕ) (lru : List ContPage) : SwapInfo :=
  { si with head := Function.update si.head (offset / pageSize) ⟨true, lru⟩ }

/-- Back to the head after an increment; the pages passed stand in reverse order. -/
def zeroBack (offset : ℕ) : List ContPage → List ContPage → List ContPage
  | [], done => done
  | page :: before, done =>
    zeroBack offset before (Function.update page offset countContinued :: done)

/-- From `*map += 1` on. -/
def finishCarry (offset : ℕ) (before : List ContPage) (page : ContPage) (after : List ContPage) :
    List ContPage :=
  zeroBack offset before (Function.update page offset (page offset + 1) :: after)

/-- The increment, from `page` on; nothing when another continuation page is needed. -/
def carry (offset : ℕ) (before : List ContPage) (page : ContPage) :
    List ContPage → Except Bug (Option (List ContPage))
  | [] =>
    if page offset = swapContMax ||| countContinued then .error .listEnds
    else if page offset = swapContMax then .ok none
    else .ok (some (finishCarry offset before page []))
  | next :: after =>
    if page offset = swapContMax ||| countContinued then carry offset (page :: before) next after
    else if page offset = swapContMax then
      .ok (some (finishCarry offset (page :: before) (Function.update next offset 0) after))
    else .ok (some (finishCarry offset before page (next :: after)))

def nineBack (offset : ℕ) (count : Byte) : List ContPage → List ContPage → Byte × List ContPage
  | [], done => (count, done)
  | page :: before, done =>
    nineBack offset countContinued before
      (Function.update page offset (swapContMax ||| count) :: done)

/-- From `BUG_ON(*map == 0)` on. -/
def finishBorrow (offset : ℕ) (before : List ContPage) (page : ContPage) (after : List ContPage) :
    Except Bug (Byte × List ContPage) :=
  if page offset = 0 then .error .emptyDigit
  else
    let page := Function.update page offset (page offset - 1)
    let count := if page offset = 0 then 0 else countContinued
    .ok (nineBack offset count before (page :: after))

def borrow (offset : ℕ) (before : List ContPage) (page : ContPage) :
    List ContPage → Except Bug (Byte × List ContPage)
  | [] =>
    if page offset = countContinued then .error .listEnds
    else finishBorrow offset before page []
  | next :: after =>
    if page offset = countContinued then borrow offset (page :: before) next after
    else finishBorrow offset before page (next :: after)

def swapCountContinued (si : SwapInfo) (offset : ℕ) (count : Byte) : Except Bug (Bool × SwapInfo) :=
  let head := si.head (offset / pageSize)
  if head.continued = false then
    if count &&& countContinued ≠ 0 then .error .notContinued else .ok (false, si)
  else
    match head.lru with
    | [] => .error .emptyList
    | page :: after =>
      let o := offset % pageSize
      if count = swapMapMax then
        .ok (true, si.setLru offset (finishCarry o [] (Function.update page o 0) after))
      else if count = swapMapMax ||| countContinued then
        match carry o [] page after with
        | .error e => .error e
        | .ok none => .ok (false, si)
        | .ok (some lru) => .ok (true, si.setLru offset lru)
      else if count ≠ countContinued then .error .notBorrowing
      else
        match borrow o [] page after with
        | .error e => .error e
        | .ok (count, lru) => .ok (count = countContinued, si.setLru offset lru)

def swapDuplicateLocked (si : SwapInfo) (offset : ℕ) (usage : Byte) : Except Bug (Ret × SwapInfo) :=
  if si.max ≤ offset then .ok (.einval, si)
  else
    let hasCache := si.swapMap offset &&& swapHasCache
    let count := si.swapMap offset &&& ~~~swapHasCache
    if usage = swapHasCache then
      if hasCache = 0 ∧ count ≠ 0 then .ok (.ok, si.setMap offset (count ||| swapHasCache))
      else if hasCache ≠ 0 then .ok (.eexist, si.setMap offset (count ||| hasCache))
      else .ok (.enoent, si.setMap offset (count ||| hasCache))
    else if count ≠ 0 ∨ hasCache ≠ 0 then
      if count &&& ~~~countContinued < swapMapMax then
        .ok (.ok, si.setMap offset ((count + usage) ||| hasCache))
      else if swapMapMax < count &&& ~~~countContinued then
        .ok (.einval, si.setMap offset (count ||| hasCache))
      else
        match swapCountContinued si offset count with
        | .error e => .error e
        | .ok (true, si) => .ok (.ok, si.setMap offset (countContinued ||| hasCache))
        | .ok (false, si) => .ok (.enomem, si.setMap offset (count ||| hasCache))
    else .ok (.enoent, si.setMap offset (count ||| hasCache))

/-- Whether `swap_info_get` finds the area of an entry. -/
def swapInfoGet (si : SwapInfo) (offset : ℕ) : Bool :=
  offset < si.max ∧ si.swapMap offset ≠ 0

/-- The walk of `add_swap_count_continuation`: whether a page of the list can take the next carry. -/
def hasRoom (offset : ℕ) : Byte → List ContPage → Bool
  | _, [] => false
  | count, page :: lru =>
    if count &&& countContinued = 0 then true
    else if page offset &&& ~~~countContinued ≠ swapContMax then true
    else hasRoom offset (page offset) lru

def addSwapCountContinuation (si : SwapInfo) (offset : ℕ) (page : Option ContPage) :
    Except Bug (Ret × SwapInfo) :=
  if swapInfoGet si offset = false then .ok (.ok, si)
  else
    let count := si.swapMap offset &&& ~~~swapHasCache
    if count &&& ~~~countContinued ≠ swapMapMax then .ok (.ok, si)
    else
      match page with
      | none => .ok (.enomem, si)
      | some page =>
        let head := si.head (offset / pageSize)
        if head.continued = false ∧ count &&& countContinued ≠ 0 then .error .notContinued
        else
          let lru := if head.continued then head.lru else []
          if hasRoom (offset % pageSize) count lru then .ok (.ok, si.setLru offset lru)
          else .ok (.ok, si.setLru offset (lru ++ [page]))

/-- At most `fuel` rounds of the loop; `alloc n` is what `alloc_page` gives in round `n`. -/
def swapDuplicate (offset : ℕ) : ℕ → (ℕ → Option ContPage) → SwapInfo →
    Except Bug (Option (Ret × SwapInfo))
  | 0, _, _ => .ok none
  | fuel + 1, alloc, si => do
    let (ret, si) ← swapDuplicateLocked si offset 1
    if ret ≠ .enomem then .ok (some (.ok, si))
    else
      let (err, si) ← addSwapCountContinuation si offset (alloc 0)
      if err ≠ .ok then .ok (some (err, si))
      else swapDuplicate offset fuel (fun n => alloc (n + 1)) si

/-- The new count, what is left of the cache reference, and the area after a borrow. -/
def releaseUsage (si : SwapInfo) (offset : ℕ) (usage : Byte) : Except Bug (Byte × Byte × SwapInfo) :=
  let hasCache := si.swapMap offset &&& swapHasCache
  let count := si.swapMap offset &&& ~~~swapHasCache
  if usage = swapHasCache then .ok (count, 0, si)
  else if count = swapMapShmem then .ok (0, hasCache, si)
  else if count &&& ~~~countContinued ≤ swapMapMax then
    if count = countContinued then
      match swapCountContinued si offset count with
      | .error e => .error e
      | .ok (true, si) => .ok (swapMapMax ||| countContinued, hasCache, si)
      | .ok (false, si) => .ok (swapMapMax, hasCache, si)
    else .ok (count - 1, hasCache, si)
  else .ok (count, hasCache, si)

/-- The branch "free if no reference". -/
def SwapInfo.noteFree (si : SwapInfo) (offset : ℕ) : SwapInfo :=
  { si with
    lowestBit := if offset < si.lowestBit then offset else si.lowestBit
    highestBit := if si.highestBit < offset then offset else si.highestBit
    nrSwapPages := si.nrSwapPages + 1
    inusePages := si.inusePages - 1 }

def swapEntryFree (si : SwapInfo) (offset : ℕ) (usage : Byte) : Except Bug (Byte × SwapInfo) := do
  let (count, hasCache, si) ← releaseUsage si offset usage
  let usage := count ||| hasCache
  let si := si.setMap offset usage
  .ok (usage, if usage = 0 then si.noteFree offset else si)

/-- The place in `scan_swap_map` where an entry is taken, with the `nr_swap_pages--` of its callers;
nothing when the scan would go on to another entry. -/
def takeEntry (si : SwapInfo) (offset : ℕ) (usage : Byte) : Option SwapInfo :=
  if si.highestBit = 0 then none
  else if si.highestBit < offset then none
  else if si.swapMap offset ≠ 0 then none
  else
    some { si with
      swapMap := Function.update si.swapMap offset usage
      lowestBit := if si.inusePages + 1 = si.pages then si.max
        else if offset = si.lowestBit then si.lowestBit + 1 else si.lowestBit
      highestBit := if si.inusePages + 1 = si.pages then 0
        else if offset = si.highestBit then si.highestBit - 1 else si.highestBit
      inusePages := si.inusePages + 1
      nrSwapPages := si.nrSwapPages - 1 }

/-- Who takes an entry: `get_swap_page` for the swap cache, `get_swap_page_of_type` for a map. -/
inductive Taker where
  | cache
  | map
  deriving DecidableEq

def Taker.usage : Taker → Byte
  | .cache => swapHasCache
  | .map => 1

inductive Step where
  | take (offset : ℕ) (taker : Taker)
  | duplicate (offset : ℕ)
  | swapcachePrepare (offset : ℕ)
  | swapFree (offset : ℕ)
  | swapcacheFree (offset : ℕ)
  | addContinuation (offset : ℕ) (page : Option ContPage)

def Step.offset : Step → ℕ
  | take offset _ => offset
  | duplicate offset => offset
  | swapcachePrepare offset => offset
  | swapFree offset => offset
  | swapcacheFree offset => offset
  | addContinuation offset _ => offset

/-- A free through `swap_info_get`, as all callers of `swap_entry_free` make it. -/
def freeThrough (si : SwapInfo) (offset : ℕ) (usage : Byte) : Except Bug (Option Ret × SwapInfo) :=
  if swapInfoGet si offset then do
    let (_, si) ← swapEntryFree si offset usage
    .ok (some .ok, si)
  else .ok (none, si)

/-- The return code, `none` where the step found no entry to work on. -/
def perform (si : SwapInfo) : Step → Except Bug (Option Ret × SwapInfo)
  | .take offset taker =>
    match takeEntry si offset taker.usage with
    | none => .ok (none, si)
    | some si => .ok (some .ok, si)
  | .duplicate offset => do
    let (ret, si) ← swapDuplicateLocked si offset 1
    .ok (some ret, si)
  | .swapcachePrepare offset => do
    let (ret, si) ← swapDuplicateLocked si offset swapHasCache
    .ok (some ret, si)
  | .swapFree offset => freeThrough si offset 1
  | .swapcacheFree offset => freeThrough si offset swapHasCache
  | .addContinuation offset page => do
    let (ret, si) ← addSwapCountContinuation si offset page
    .ok (some ret, si)

abbrev Event := Step × Option Ret

def run : List Step → SwapInfo → Except Bug (List Event × SwapInfo)
  | [], si => .ok ([], si)
  | step :: steps, si => do
    let (ret, si) ← perform si step
    let (log, si) ← run steps si
    .ok ((step, ret) :: log, si)

end VDLinux.Mm.Swap
