import MacZfs.Errlog.Name

/-!
# The error log of a pool

Data errors are kept in two in-core lists and two objects on disk. A scrub swaps them when it ends:
`spa_errlog_rotate` asks for it and the next `spa_errlog_sync` does it.

Every step below is what one thread does between taking and dropping a lock that others wait for:

* `spa_log_error` is one step under `spa_errlist_lock`. `bcmp` tells equal bookmarks from different
  ones but gives no order, so a search in a list may miss an entry; it finds none that is not there.
* `spa_errlog_sync` is two steps, since it drops `spa_errlist_lock` before it takes
  `spa_errlog_lock`. It is called from `spa_sync` only, which holds the config lock as a reader.
* `spa_get_errlog` is two steps as well: it holds `spa_errlog_lock` all the time but takes
  `spa_errlist_lock` only for the lists.
* `spa_scrub_thread` is a step for every stretch between two places where it waits, or where others
  can see `spa_scrub_active`. It ends under the config lock as a writer.
-/

namespace MacZfs.Errlog

/-! ## State -/

/-- `spa_load_state_t`. -/
inductive LoadState where
  | none
  | opening
  | importing
  | tryimport
  deriving Repr, DecidableEq

/-- `pool_scrub_type_t`, without `POOL_SCRUB_NONE`. -/
inductive PoolScrubType where
  | resilver
  | everything
  deriving Repr, DecidableEq

/-- The variable `error` of `spa_scrub_thread`. -/
inductive ScrubError where
  | ok
  | eagain
  | erestart
  | eintr
  | eio
  deriving Repr, DecidableEq

/-- How far `txg_wait_synced` has come: the sync that it waits for begins after the call. -/
inductive TxgWait where
  | unsynced
  | syncing
  | synced
  deriving Repr, DecidableEq

/-- Where `spa_scrub_thread` is. -/
inductive Phase where
  /-- in `txg_wait_synced` -/
  | waiting (progress : TxgWait)
  /-- at the head of the loop -/
  | looping (error : ScrubError)
  /-- at the test of `spa_scrub_suspended` -/
  | checking (error : ScrubError)
  /-- in the `cv_wait` of a suspended scrub -/
  | parked (error : ScrubError)
  /-- in `traverse_more` -/
  | traversing
  /-- behind the loop, waiting for reads in flight -/
  | draining (error : ScrubError)
  /-- waiting for the config lock -/
  | ended (error : ScrubError)
  /-- behind `spa_errlog_rotate` -/
  | rotated
  deriving Repr, DecidableEq

structure ScrubThread where
  scrubType : PoolScrubType
  phase : Phase
  deriving Repr, DecidableEq

/-- The local copies of `spa_errlog_sync`. -/
structure ErrlogSync where
  last : List Zbookmark
  scrub : List Zbookmark
  scrubFinished : Bool

/-- What `spa_get_errlog` returns. -/
inductive GetError where
  | ok
  | enomem
  deriving Repr, DecidableEq

/-- A call of `spa_get_errlog`: what it will return, the bookmarks that it has copied out, and how
    many there is still room for. The buffer is filled from its end. -/
structure ErrlogGet where
  ret : GetError
  out : List (ℕ × ℕ × ℤ × ℕ)
  count : ℕ

abbrev ErrlogObj := List (List Char)

structure Spa where
  spaLoadState : LoadState
  spaErrlistLast : List Zbookmark
  spaErrlistScrub : List Zbookmark
  spaErrlogLast : Option ErrlogObj
  spaErrlogScrub : Option ErrlogObj
  spaScrubActive : Bool
  spaScrubFinished : Bool
  spaScrubSuspended : ℕ
  spaScrubStop : Bool
  spaScrubRestartTxg : ℕ
  spaScrubThread : Option ScrubThread
  sync : Option ErrlogSync
  get : Option ErrlogGet

/-! ## Errors -/

/-- `spa_log_error`. `found` is the result of `avl_find`. -/
def spaLogError (spa : Spa) (zb : Zbookmark) (found : Bool) : Option Spa :=
  if spa.spaLoadState = .tryimport then some spa
  else if spa.spaScrubActive || spa.spaScrubFinished then
    if found then if zb ∈ spa.spaErrlistScrub then some spa else none
    else some { spa with spaErrlistScrub := zb :: spa.spaErrlistScrub }
  else
    if found then if zb ∈ spa.spaErrlistLast then some spa else none
    else some { spa with spaErrlistLast := zb :: spa.spaErrlistLast }

def zapUpdate (obj : ErrlogObj) (name : List Char) : ErrlogObj := if name ∈ obj then obj else name :: obj

/-- `sync_error_list`. -/
def syncErrorList (t : List Zbookmark) (obj : Option ErrlogObj) : Option ErrlogObj :=
  if t = [] then obj
  else some (t.foldl (fun obj se => zapUpdate obj (bookmarkToName se nameBufLen)) (obj.getD []))

/-- `txg_wait_synced` of the scrub thread sees that a sync begins. -/
def Phase.syncBegins : Phase → Phase
  | .waiting .unsynced => .waiting .syncing
  | phase => phase

/-- `txg_wait_synced` of the scrub thread sees that a sync has ended. -/
def Phase.syncEnds : Phase → Phase
  | .waiting .syncing => .waiting .synced
  | phase => phase

def Spa.mapPhase (spa : Spa) (f : Phase → Phase) : Spa :=
  { spa with spaScrubThread := spa.spaScrubThread.map fun thread => { thread with phase := f thread.phase } }

/-- The first half of `spa_errlog_sync`, under `spa_errlist_lock`. -/
def errlogSyncTake (spa : Spa) : Option Spa :=
  if spa.sync.isSome then none
  else if spa.spaErrlistScrub = [] ∧ spa.spaErrlistLast = [] ∧ spa.spaScrubFinished = false then
    some ((spa.mapPhase Phase.syncBegins).mapPhase Phase.syncEnds)
  else
    some ({ spa with
      sync := some ⟨spa.spaErrlistLast, spa.spaErrlistScrub, spa.spaScrubFinished⟩
      spaErrlistLast := []
      spaErrlistScrub := []
      spaScrubFinished := false }.mapPhase Phase.syncBegins)

/-- The second half of `spa_errlog_sync`, under `spa_errlog_lock`. After the rotation `scrub` has
    been purged, so that the last call adds nothing. -/
def errlogSyncWrite (spa : Spa) : Option Spa :=
  if spa.get.isSome then none
  else
    match spa.sync with
    | none => none
    | some sync =>
      let spa := { spa with sync := none, spaErrlogLast := syncErrorList sync.last spa.spaErrlogLast }
      let spa :=
        if sync.scrubFinished then
          { spa with
            spaErrlogLast := syncErrorList sync.scrub spa.spaErrlogScrub
            spaErrlogScrub := none }
        else { spa with spaErrlogScrub := syncErrorList sync.scrub spa.spaErrlogScrub }
      some (spa.mapPhase Phase.syncEnds)

/-! ## Reports -/

/-- One turn of the loops of `process_error_log` and `process_error_list`. -/
def copyout (get : ErrlogGet) (zb : ℕ × ℕ × ℤ × ℕ) : ErrlogGet :=
  if get.ret ≠ .ok then get
  else if get.count = 0 then { get with ret := .enomem }
  else { get with out := zb :: get.out, count := get.count - 1 }

/-- `process_error_log`. -/
def processErrorLog (obj : Option ErrlogObj) (get : ErrlogGet) : ErrlogGet :=
  ((obj.getD []).map nameToBookmark).foldl copyout get

/-- `process_error_list`. -/
def processErrorList (list : List Zbookmark) (get : ErrlogGet) : ErrlogGet :=
  (list.map Zbookmark.fields).foldl copyout get

/-- `spa_get_errlog`, the logs. -/
def getErrlogLogs (spa : Spa) (count : ℕ) : Option Spa :=
  if spa.get.isSome then none
  else
    let get := processErrorLog spa.spaErrlogScrub ⟨.ok, [], count⟩
    let get := if spa.spaScrubFinished then get else processErrorLog spa.spaErrlogLast get
    some { spa with get := some get }

/-- `spa_get_errlog`, the lists. The call returns. -/
def getErrlogLists (spa : Spa) : Option (Spa × ErrlogGet) :=
  match spa.get with
  | none => none
  | some get =>
    let get := processErrorList spa.spaErrlistScrub get
    let get := processErrorList spa.spaErrlistLast get
    some ({ spa with get := none }, get)

/-! ## Scrubs -/

/-- `spa_scrub` once there is no thread, with the type that it has settled on. -/
def spaScrub (spa : Spa) (type : Option PoolScrubType) : Option Spa :=
  match spa.spaScrubThread with
  | some _ => none
  | none =>
    some { spa with
      spaScrubStop := false
      spaScrubRestartTxg := 0
      spaScrubThread := type.map fun type => ⟨type, .waiting .unsynced⟩ }

def scrubError (spa : Spa) (error : ScrubError) : ScrubError :=
  let error := if spa.spaScrubRestartTxg ≠ 0 then .erestart else error
  if spa.spaScrubStop then .eintr else error

/-- `spa_errlog_rotate`. -/
def spaErrlogRotate (spa : Spa) : Spa := { spa with spaScrubFinished := true }

/-- A step of one of the threads. The step in which a scrub begins is labelled with its type, the
    one in which it ends with `complete`, and the one in which `spa_get_errlog` returns with what it
    returns. -/
inductive Event where
  | logError (zb : Zbookmark) (found : Bool)
  | syncTake
  | syncWrite
  | getLogs (count : ℕ)
  | getLists (get : ErrlogGet)
  | scrub (type : Option PoolScrubType)
  | scrubStop
  | scrubRestart (txg : ℕ)
  | scrubSuspend
  | scrubResume
  | threadBegin (type : PoolScrubType)
  | threadLoop
  | threadCheck
  | threadWake
  | threadTraversed (error : ScrubError)
  | threadDrained
  | threadFinish (complete : Bool)
  | threadExit

def Spa.goto (spa : Spa) (type : PoolScrubType) (phase : Phase) : Spa :=
  { spa with spaScrubThread := some ⟨type, phase⟩ }

/-- The stretches of `spa_scrub_thread`. -/
def scrubThread (spa : Spa) (event : Event) (thread : ScrubThread) : Option Spa :=
  let goto := spa.goto thread.scrubType
  match event, thread.phase with
  | .threadBegin type, .waiting .synced =>
    if type = thread.scrubType then some { goto (.looping .ok) with spaScrubActive := true } else none
  | .threadLoop, .looping error =>
    if spa.spaScrubStop then some (goto (.draining error)) else some (goto (.checking error))
  | .threadCheck, .checking error =>
    if spa.spaScrubSuspended ≠ 0 then some { goto (.parked error) with spaScrubActive := false }
    else if spa.spaScrubRestartTxg ≠ 0 then some (goto (.draining error))
    else some (goto .traversing)
  | .threadWake, .parked error => some { goto (.checking error) with spaScrubActive := true }
  | .threadTraversed error, .traversing =>
    if error = .eagain then some (goto (.looping error)) else some (goto (.draining error))
  | .threadDrained, .draining error => some { goto (.ended error) with spaScrubActive := false }
  | .threadFinish complete, .ended error =>
    -- the config lock is held as a writer
    if spa.sync.isSome then none
    else if complete = (scrubError spa error = .ok : Bool) then some (spaErrlogRotate (goto .rotated)) else none
  | .threadExit, .rotated => some { spa with spaScrubActive := false, spaScrubThread := none }
  | _, _ => none

def exec (spa : Spa) : Event → Option Spa
  | .logError zb found => spaLogError spa zb found
  | .syncTake => errlogSyncTake spa
  | .syncWrite => errlogSyncWrite spa
  | .getLogs count => getErrlogLogs spa count
  | .getLists get =>
    match getErrlogLists spa with
    | none => none
    | some (spa, result) =>
      if result.ret = get.ret ∧ result.out = get.out ∧ result.count = get.count then some spa else none
  | .scrub type => spaScrub spa type
  | .scrubStop => if spa.spaScrubThread.isSome then some { spa with spaScrubStop := true } else none
  | .scrubRestart txg => some { spa with spaScrubRestartTxg := txg }
  | .scrubSuspend => some { spa with spaScrubSuspended := spa.spaScrubSuspended + 1 }
  | .scrubResume =>
    if spa.spaScrubSuspended ≠ 0 then some { spa with spaScrubSuspended := spa.spaScrubSuspended - 1 } else none
  | event =>
    match spa.spaScrubThread with
    | none => none
    | some thread => scrubThread spa event thread

structure Spa.Opened (spa : Spa) : Prop where
  loaded : spa.spaLoadState ≠ .tryimport
  active : spa.spaScrubActive = false
  finished : spa.spaScrubFinished = false
  thread : spa.spaScrubThread = none
  sync : spa.sync = none
  get : spa.get = none

end MacZfs.Errlog
