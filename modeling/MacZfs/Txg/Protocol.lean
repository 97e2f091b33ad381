import MacZfs.Base
import MacZfs.Lib.Mutexes
import MacZfs.Lib.Runs

/-!
# Transaction groups

`txg.c` as a transition system: any number of handles on any CPUs, the quiesce thread and the sync
thread. A step is what a thread does between two points where another one can see the difference.
The parts that run under `tx_sync_lock` are single steps, since all they read and write, other than
`tx_open_txg`, is protected by it, and only the quiesce thread writes `tx_open_txg`. The parts under
a `tc_lock` are several steps, with the lock as part of the state.
-/

namespace MacZfs.Txg

open Mutexes Runs

/-- Who owns a `tc_lock`. -/
inductive Owner (ι : Type) where
  | handle (h : ι)
  | quiesce
  deriving DecidableEq

/-- Where the thread that uses a `txg_handle_t` is. -/
inductive HandlePc (ncpus : ℕ) where
  /-- No hold: `th_cpu` is not set. -/
  | idle
  /-- In `txg_hold_open`, with the lock. -/
  | entered (cpu : Fin ncpus)
  /-- In `txg_hold_open`, with the value of `tx_open_txg`. -/
  | fetched (cpu : Fin ncpus) (txg : ℕ)
  /-- After `txg_hold_open`, which returns with the lock held. -/
  | opened (cpu : Fin ncpus) (txg : ℕ)
  /-- After `txg_rele_to_quiesce`. -/
  | held (cpu : Fin ncpus) (txg : ℕ)
  /-- In `txg_rele_to_sync`, with the lock. -/
  | releasing (cpu : Fin ncpus) (txg : ℕ)
  deriving DecidableEq

inductive QuiescePc where
  /-- Not running. -/
  | exited
  /-- At the head of its loop. -/
  | waiting
  /-- In `txg_quiesce`, with the locks of the CPUs before `c`. -/
  | locking (txg c : ℕ)
  /-- With `tx_open_txg` advanced and the locks of the CPUs from `c` on. -/
  | unlocking (txg c : ℕ)
  /-- The CPUs before `c` have let go of `txg`. -/
  | draining (txg c : ℕ)
  /-- The same, with the lock of CPU `c`. -/
  | checking (txg c : ℕ)
  deriving DecidableEq

inductive SyncPc where
  | exited
  | waiting
  /-- In `spa_sync`. -/
  | syncing (txg : ℕ)
  deriving DecidableEq

/-- `tx_state_t`, with the `tx_cpu_t` of each CPU and where every thread is. `spaSync` is the list of
    calls to `spa_sync` so far; no step looks at it. -/
structure TxState (ncpus : ℕ) (ι : Type) where
  tcLock : Fin ncpus → Option (Owner ι)
  tcCount : Fin ncpus → ℕ → ℕ
  txOpenTxg : ℕ
  txQuiescedTxg : ℕ
  txSyncingTxg : ℕ
  txSyncedTxg : ℕ
  txSyncTxgWaiting : ℕ
  txQuiesceTxgWaiting : ℕ
  /-- The readers that hold `tx_suspend`. -/
  txSuspend : ℕ
  txExiting : Bool
  quiesceThread : QuiescePc
  syncThread : SyncPc
  handle : ι → HandlePc ncpus
  spaSync : List ℕ

variable {ncpus : ℕ} {ι : Type}

/-- `txg_init`. -/
def txgInit (txg : ℕ) : TxState ncpus ι where
  tcLock _ := none
  tcCount _ _ := 0
  txOpenTxg := txg
  txQuiescedTxg := 0
  txSyncingTxg := 0
  txSyncedTxg := 0
  txSyncTxgWaiting := 0
  txQuiesceTxgWaiting := 0
  txSuspend := 0
  txExiting := false
  quiesceThread := .exited
  syncThread := .exited
  handle _ := .idle
  spaSync := []

namespace TxState

variable [DecidableEq ι]

/-- `tc_count[txg & TXG_MASK]` of a CPU replaced. -/
def setCount (s : TxState ncpus ι) (cpu : Fin ncpus) (txg n : ℕ) : Fin ncpus → ℕ → ℕ :=
  Function.update s.tcCount cpu (Function.update (s.tcCount cpu) (txgSlot txg) n)

end TxState

variable [DecidableEq ι]

inductive Step : TxState ncpus ι → TxState ncpus ι → Prop
  /-- `txg_hold_open` on the CPU the thread runs on. -/
  | holdEnter {s : TxState ncpus ι} (h : ι) (cpu : Fin ncpus) (idle : s.handle h = .idle)
      (free : s.tcLock cpu = none) :
      Step s { s with
        tcLock := Function.update s.tcLock cpu (some (.handle h))
        handle := Function.update s.handle h (.entered cpu) }
  | holdFetch {s : TxState ncpus ι} {h : ι} {cpu : Fin ncpus} (at_ : s.handle h = .entered cpu) :
      Step s { s with handle := Function.update s.handle h (.fetched cpu s.txOpenTxg) }
  | holdCount {s : TxState ncpus ι} {h : ι} {cpu : Fin ncpus} {txg : ℕ}
      (at_ : s.handle h = .fetched cpu txg) :
      Step s { s with
        tcCount := s.setCount cpu txg (s.tcCount cpu (txgSlot txg) + 1)
        handle := Function.update s.handle h (.opened cpu txg) }
  /-- `txg_rele_to_quiesce`. -/
  | releToQuiesce {s : TxState ncpus ι} {h : ι} {cpu : Fin ncpus} {txg : ℕ}
      (at_ : s.handle h = .opened cpu txg) :
      Step s { s with
        tcLock := Function.update s.tcLock cpu none
        handle := Function.update s.handle h (.held cpu txg) }
  /-- `txg_rele_to_sync`. -/
  | releEnter {s : TxState ncpus ι} {h : ι} {cpu : Fin ncpus} {txg : ℕ}
      (at_ : s.handle h = .held cpu txg) (free : s.tcLock cpu = none) :
      Step s { s with
        tcLock := Function.update s.tcLock cpu (some (.handle h))
        handle := Function.update s.handle h (.releasing cpu txg) }
  | releToSync {s : TxState ncpus ι} {h : ι} {cpu : Fin ncpus} {txg : ℕ}
      (at_ : s.handle h = .releasing cpu txg) :
      Step s { s with
        tcLock := Function.update s.tcLock cpu none
        tcCount := s.setCount cpu txg (s.tcCount cpu (txgSlot txg) - 1)
        handle := Function.update s.handle h .idle }
  /-- `txg_quiesce_thread` finds that someone waits for it and calls `txg_quiesce`. -/
  | quiesceBegin {s : TxState ncpus ι} (at_ : s.quiesceThread = .waiting)
      (running : s.txExiting = false) (wanted : s.txOpenTxg < s.txQuiesceTxgWaiting)
      (consumed : s.txQuiescedTxg = 0) :
      Step s { s with quiesceThread := .locking s.txOpenTxg 0 }
  | quiesceLock {s : TxState ncpus ι} {txg : ℕ} (cpu : Fin ncpus)
      (at_ : s.quiesceThread = .locking txg cpu) (free : s.tcLock cpu = none) :
      Step s { s with
        tcLock := Function.update s.tcLock cpu (some .quiesce)
        quiesceThread := .locking txg (cpu + 1) }
  | quiesceAdvance {s : TxState ncpus ι} {txg : ℕ} (at_ : s.quiesceThread = .locking txg ncpus) :
      Step s { s with
        txOpenTxg := s.txOpenTxg + 1
        quiesceThread := .unlocking txg 0 }
  | quiesceUnlock {s : TxState ncpus ι} {txg : ℕ} {cpu : Fin ncpus}
      (at_ : s.quiesceThread = .unlocking txg cpu) :
      Step s { s with
        tcLock := Function.update s.tcLock cpu none
        quiesceThread := .unlocking txg (cpu + 1) }
  | quiesceDrain {s : TxState ncpus ι} {txg : ℕ} (at_ : s.quiesceThread = .unlocking txg ncpus) :
      Step s { s with quiesceThread := .draining txg 0 }
  | drainEnter {s : TxState ncpus ι} {txg : ℕ} {cpu : Fin ncpus}
      (at_ : s.quiesceThread = .draining txg cpu) (free : s.tcLock cpu = none) :
      Step s { s with
        tcLock := Function.update s.tcLock cpu (some .quiesce)
        quiesceThread := .checking txg cpu }
  /-- `cv_wait`, which gives up the lock. -/
  | drainWait {s : TxState ncpus ι} {txg : ℕ} {cpu : Fin ncpus}
      (at_ : s.quiesceThread = .checking txg cpu) (busy : s.tcCount cpu (txgSlot txg) ≠ 0) :
      Step s { s with
        tcLock := Function.update s.tcLock cpu none
        quiesceThread := .draining txg cpu }
  | drainExit {s : TxState ncpus ι} {txg : ℕ} {cpu : Fin ncpus}
      (at_ : s.quiesceThread = .checking txg cpu) (empty : s.tcCount cpu (txgSlot txg) = 0) :
      Step s { s with
        tcLock := Function.update s.tcLock cpu none
        quiesceThread := .draining txg (cpu + 1) }
  /-- The transaction group is handed off to the sync thread. -/
  | handOff {s : TxState ncpus ι} {txg : ℕ} (at_ : s.quiesceThread = .draining txg ncpus) :
      Step s { s with
        txQuiescedTxg := txg
        quiesceThread := .waiting }
  | quiesceExit {s : TxState ncpus ι} (at_ : s.quiesceThread = .waiting)
      (exiting : s.txExiting = true) : Step s { s with quiesceThread := .exited }
  /-- `txg_sync_thread` prompts the quiesce thread. -/
  | syncPrompt {s : TxState ncpus ι} (at_ : s.syncThread = .waiting)
      (running : s.txExiting = false) (wanted : s.txSyncedTxg < s.txSyncTxgWaiting)
      (none : s.txQuiescedTxg = 0) :
      Step s { s with txQuiesceTxgWaiting := max s.txQuiesceTxgWaiting (s.txOpenTxg + 1) }
  /-- It consumes the quiesced transaction group and calls `spa_sync`. -/
  | syncBegin {s : TxState ncpus ι} (at_ : s.syncThread = .waiting)
      (running : s.txExiting = false) (some : s.txQuiescedTxg ≠ 0) (writer : s.txSuspend = 0) :
      Step s { s with
        txQuiescedTxg := 0
        txSyncingTxg := s.txQuiescedTxg
        syncThread := .syncing s.txQuiescedTxg
        spaSync := s.spaSync ++ [s.txQuiescedTxg] }
  | syncEnd {s : TxState ncpus ι} {txg : ℕ} (at_ : s.syncThread = .syncing txg)
      (writer : s.txSuspend = 0) :
      Step s { s with
        txSyncedTxg := txg
        txSyncingTxg := 0
        syncThread := .waiting }
  | syncExit {s : TxState ncpus ι} (at_ : s.syncThread = .waiting) (exiting : s.txExiting = true) :
      Step s { s with syncThread := .exited }
  /-- `txg_wait_synced`. -/
  | waitSynced {s : TxState ncpus ι} (txg : ℕ) :
      Step s { s with
        txSyncTxgWaiting := max s.txSyncTxgWaiting (if txg = 0 then s.txOpenTxg else txg) }
  /-- `txg_wait_open` and `txg_timelimit_thread`. -/
  | waitOpen {s : TxState ncpus ι} (txg : ℕ) :
      Step s { s with
        txQuiesceTxgWaiting :=
          max s.txQuiesceTxgWaiting (if txg = 0 then s.txOpenTxg + 1 else txg) }
  /-- `txg_suspend` and `txg_resume`. -/
  | suspend {s : TxState ncpus ι} : Step s { s with txSuspend := s.txSuspend + 1 }
  | resume {s : TxState ncpus ι} (suspended : 0 < s.txSuspend) :
      Step s { s with txSuspend := s.txSuspend - 1 }
  /-- `txg_sync_start`. -/
  | start {s : TxState ncpus ι} (quiesce : s.quiesceThread = .exited)
      (sync : s.syncThread = .exited) :
      Step s { s with quiesceThread := .waiting, syncThread := .waiting }
  /-- `txg_sync_stop` tells the threads to exit, and waits until they have. -/
  | stop {s : TxState ncpus ι} : Step s { s with txExiting := true }
  | stopped {s : TxState ncpus ι} (quiesce : s.quiesceThread = .exited)
      (sync : s.syncThread = .exited) : Step s { s with txExiting := false }

/-- The runs of the transaction group threads of a pool whose first transaction group is `first`. -/
def runs (ncpus : ℕ) (ι : Type) [DecidableEq ι] (first : ℕ) : System (TxState ncpus ι) where
  init s := s = txgInit first
  step := Step

end MacZfs.Txg
