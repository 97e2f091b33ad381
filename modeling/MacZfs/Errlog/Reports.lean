import MacZfs.Errlog.Basic

/-!
# Errors stay reported

An error that was logged is reported until a scrub that began after it has completed, in every run
in which no scrub ends early, no error is logged while a scrub is between two stretches of work, and
no report is made while `spa_errlog_sync` holds the lists in its hands. Where the code does not see
to one of these, an error is lost.
-/

namespace MacZfs.Errlog

open List Option

variable {spa spa' : Spa} {zb : Zbookmark} {event : Event} {kinds : Set PoolScrubType} {events : List Event}

/-! ## Where an error is -/

def InLog (zb : Zbookmark) (obj : Option ErrlogObj) : Prop :=
  ∃ names ∈ obj, bookmarkToName zb nameBufLen ∈ names

def Secure (zb : Zbookmark) (spa : Spa) : Prop :=
  zb ∈ spa.spaErrlistScrub ∨ InLog zb spa.spaErrlogScrub ∨ ∃ sync ∈ spa.sync, zb ∈ sync.scrub

def Held (zb : Zbookmark) (spa : Spa) : Prop :=
  Secure zb spa ∨ spa.spaScrubFinished = false ∧ (zb ∈ spa.spaErrlistLast ∨
    (∀ sync ∈ spa.sync, sync.scrubFinished = false) ∧
      (InLog zb spa.spaErrlogLast ∨ ∃ sync ∈ spa.sync, zb ∈ sync.last))

theorem mem_zapUpdate : name ∈ zapUpdate obj name' ↔ name = name' ∨ name ∈ obj := by
  unfold zapUpdate
  split
  · rename_i present
    exact ⟨.inr, fun either => either.elim (fun same => same ▸ present) id⟩
  · exact mem_cons

theorem mem_foldl_zapUpdate {t : List Zbookmark} :
    name ∈ t.foldl (fun obj se => zapUpdate obj (bookmarkToName se nameBufLen)) obj ↔
      name ∈ obj ∨ ∃ zb ∈ t, name = bookmarkToName zb nameBufLen := by
  induction t generalizing obj with
  | nil => simp
  | cons se t ih =>
    rw [foldl_cons, ih, mem_zapUpdate]
    simp only [mem_cons, exists_eq_or_imp]
    tauto

theorem InLog.syncErrorList (there : InLog zb obj) (t : List Zbookmark) : InLog zb (syncErrorList t obj) := by
  obtain ⟨names, rfl, member⟩ := there
  unfold Errlog.syncErrorList
  split
  · exact ⟨names, rfl, member⟩
  · exact ⟨_, rfl, mem_foldl_zapUpdate.mpr (.inl member)⟩

theorem inLog_of_mem (member : zb ∈ t) (obj : Option ErrlogObj) : InLog zb (syncErrorList t obj) := by
  unfold syncErrorList
  rw [if_neg (ne_nil_of_mem member)]
  exact ⟨_, rfl, mem_foldl_zapUpdate.mpr (.inr ⟨zb, member, rfl⟩)⟩

/-! ## Steps -/

def Phase.Begun : Phase → Prop
  | .waiting _ => False
  | .rotated => False
  | _ => True

inductive Moves : Option ScrubThread → Event → Option ScrubThread → Prop
  | stays {thread : Option ScrubThread} {event : Event} (quiet : ∀ type, event ≠ .threadBegin type) :
      Moves thread event thread
  | starts {type : PoolScrubType} {event : Event} (quiet : ∀ type, event ≠ .threadBegin type) :
      Moves none event (some ⟨type, .waiting .unsynced⟩)
  | begins {type : PoolScrubType} {phase : Phase} (begun : phase.Begun) :
      Moves (some ⟨type, .waiting .synced⟩) (.threadBegin type) (some ⟨type, phase⟩)
  | works {type : PoolScrubType} {phase phase' : Phase} {event : Event} (begun : phase.Begun) (begun' : phase'.Begun)
      (quiet : ∀ type, event ≠ .threadBegin type) : Moves (some ⟨type, phase⟩) event (some ⟨type, phase'⟩)
  | exits {type : PoolScrubType} : Moves (some ⟨type, .rotated⟩) .threadExit none

structure Same (spa spa' : Spa) : Prop where
  loaded : spa'.spaLoadState = spa.spaLoadState
  last : spa'.spaErrlistLast = spa.spaErrlistLast
  scrub : spa'.spaErrlistScrub = spa.spaErrlistScrub
  logLast : spa'.spaErrlogLast = spa.spaErrlogLast
  logScrub : spa'.spaErrlogScrub = spa.spaErrlogScrub
  finished : spa'.spaScrubFinished = spa.spaScrubFinished
  sync : spa'.sync = spa.sync
  get : spa'.get = spa.get

inductive Step (spa : Spa) : Event → Spa → Prop
  | log {zb : Zbookmark} {found : Bool} {last scrub : List Zbookmark} (growsLast : spa.spaErrlistLast ⊆ last)
      (growsScrub : spa.spaErrlistScrub ⊆ scrub)
      (logged : spa.spaLoadState ≠ .tryimport →
        if spa.spaScrubActive || spa.spaScrubFinished then zb ∈ scrub else zb ∈ last) :
      Step spa (.logError zb found) { spa with spaErrlistLast := last, spaErrlistScrub := scrub }
  | bail (idle : spa.sync = none) (unfinished : spa.spaScrubFinished = false) :
      Step spa .syncTake ((spa.mapPhase Phase.syncBegins).mapPhase Phase.syncEnds)
  | take (idle : spa.sync = none) :
      Step spa .syncTake ({ spa with
        sync := some ⟨spa.spaErrlistLast, spa.spaErrlistScrub, spa.spaScrubFinished⟩
        spaErrlistLast := []
        spaErrlistScrub := []
        spaScrubFinished := false }.mapPhase Phase.syncBegins)
  | write {sync : ErrlogSync} (taken : spa.sync = some sync) (unlocked : spa.get = none)
      (unrotated : sync.scrubFinished = false) :
      Step spa .syncWrite ({ spa with
        sync := none
        spaErrlogLast := syncErrorList sync.last spa.spaErrlogLast
        spaErrlogScrub := syncErrorList sync.scrub spa.spaErrlogScrub }.mapPhase Phase.syncEnds)
  | rotate {sync : ErrlogSync} (taken : spa.sync = some sync) (unlocked : spa.get = none)
      (rotated : sync.scrubFinished = true) :
      Step spa .syncWrite ({ spa with
        sync := none
        spaErrlogLast := syncErrorList sync.scrub spa.spaErrlogScrub
        spaErrlogScrub := none }.mapPhase Phase.syncEnds)
  | logs {count : ℕ} {get : ErrlogGet} (unlocked : spa.get = none)
      (result : get = if spa.spaScrubFinished then processErrorLog spa.spaErrlogScrub ⟨.ok, [], count⟩
        else processErrorLog spa.spaErrlogLast (processErrorLog spa.spaErrlogScrub ⟨.ok, [], count⟩)) :
      Step spa (.getLogs count) { spa with get := some get }
  | lists {get : ErrlogGet} (reading : spa.get = some get) :
      Step spa (.getLists (processErrorList spa.spaErrlistLast (processErrorList spa.spaErrlistScrub get)))
        { spa with get := none }
  | quiet {event : Event} {spa' : Spa} (same : Same spa spa')
      (moves : Moves spa.spaScrubThread event spa'.spaScrubThread)
      (unfinished : ∀ complete, event ≠ .threadFinish complete) (unsaid : ∀ get, event ≠ .getLists get)
      (unlogged : ∀ zb found, event ≠ .logError zb found) : Step spa event spa'
  | finish {type : PoolScrubType} {error : ScrubError} (thread : spa.spaScrubThread = some ⟨type, .ended error⟩)
      (idle : spa.sync = none) :
      Step spa (.threadFinish (scrubError spa error = .ok : Bool)) (spaErrlogRotate (spa.goto type .rotated))

theorem spaLogError_step {found} (result : spaLogError spa zb found = some spa') :
    Step spa (.logError zb found) spa' := by
  unfold spaLogError at result
  split at result
  · rename_i trying
    cases result
    exact .log (Subset.refl _) (Subset.refl _) fun loaded => absurd trying loaded
  · split at result
    · rename_i isScrub
      split at result
      · split at result
        · rename_i member
          cases result
          exact .log (Subset.refl _) (Subset.refl _) fun _ => by rwa [if_pos isScrub]
        · cases result
      · cases result
        refine .log (Subset.refl _) (subset_cons_self _ _) fun _ => ?_
        rw [if_pos isScrub]
        exact mem_cons_self
    · rename_i isLast
      split at result
      · split at result
        · rename_i member
          cases result
          exact .log (Subset.refl _) (Subset.refl _) fun _ => by rwa [if_neg isLast]
        · cases result
      · cases result
        refine .log (subset_cons_self _ _) (Subset.refl _) fun _ => ?_
        rw [if_neg isLast]
        exact mem_cons_self

theorem errlogSyncTake_step (result : errlogSyncTake spa = some spa') : Step spa .syncTake spa' := by
  unfold errlogSyncTake at result
  split at result
  · cases result
  · rename_i notSyncing
    have idle : spa.sync = none := by simpa using notSyncing
    split at result
    · rename_i empty
      cases result
      exact .bail idle empty.2.2
    · cases result
      exact .take idle

theorem errlogSyncWrite_step (result : errlogSyncWrite spa = some spa') : Step spa .syncWrite spa' := by
  unfold errlogSyncWrite at result
  split at result
  · cases result
  · rename_i notReading
    have unlocked : spa.get = none := by simpa using notReading
    split at result
    · cases result
    · rename_i sync taken
      cases rotated : sync.scrubFinished with
      | false =>
        simp only [rotated] at result
        cases result
        exact .write taken unlocked rotated
      | true =>
        simp only [rotated] at result
        cases result
        exact .rotate taken unlocked rotated

theorem getErrlogLogs_step {count} (result : getErrlogLogs spa count = some spa') :
    Step spa (.getLogs count) spa' := by
  unfold getErrlogLogs at result
  split at result
  · cases result
  · rename_i notReading
    cases result
    exact .logs (by simpa using notReading) rfl

theorem getErrlogLists_step {get} (result : exec spa (.getLists get) = some spa') :
    Step spa (.getLists get) spa' := by
  simp only [exec, getErrlogLists] at result
  cases reading : spa.get with
  | none => simp [reading] at result
  | some before =>
    simp only [reading] at result
    split at result
    · rename_i same
      cases result
      have : get = processErrorList spa.spaErrlistLast (processErrorList spa.spaErrlistScrub before) := by
        cases get
        obtain ⟨rfl, rfl, rfl⟩ := same
        rfl
      rw [this]
      exact .lists reading
    · cases result

def Event.Quiet : Event → Prop
  | .logError .. => False
  | .getLists _ => False
  | .threadBegin _ => False
  | .threadFinish _ => False
  | _ => True

theorem Event.Quiet.step (isQuiet : event.Quiet) (same : Same spa spa')
    (moves : (∀ type, event ≠ .threadBegin type) → Moves spa.spaScrubThread event spa'.spaScrubThread) :
    Step spa event spa' := by
  refine .quiet same (moves ?_) ?_ ?_ ?_
  · rintro type rfl
    exact isQuiet
  · rintro complete rfl
    exact isQuiet
  · rintro get rfl
    exact isQuiet
  · rintro zb found rfl
    exact isQuiet

theorem scrubThread_step {thread} (there : spa.spaScrubThread = some thread)
    (result : scrubThread spa event thread = some spa') : Step spa event spa' := by
  obtain ⟨type, phase⟩ := thread
  have same {active : Bool} {phase' : Phase} : Same spa { spa.goto type phase' with spaScrubActive := active } :=
    ⟨rfl, rfl, rfl, rfl, rfl, rfl, rfl, rfl⟩
  have works {active phase'} (isQuiet : event.Quiet) (begun : phase.Begun) (begun' : phase'.Begun) :
      Step spa event { spa.goto type phase' with spaScrubActive := active } :=
    isQuiet.step same fun quiet => there ▸ .works begun begun' quiet
  unfold scrubThread at result
  dsimp only at result
  split at result
  · split at result
    · rename_i isType
      cases result
      subst isType
      refine .quiet same ?_ (by simp) (by simp) (by simp)
      rw [there]
      exact .begins trivial
    · cases result
  · split at result <;> cases result <;>
      exact works trivial trivial trivial
  · split at result
    · cases result
      exact works trivial trivial trivial
    · split at result <;> cases result <;>
        exact works trivial trivial trivial
  · cases result
    exact works trivial trivial trivial
  · split at result <;> cases result <;>
      exact works trivial trivial trivial
  · cases result
    exact works trivial trivial trivial
  · split at result
    · cases result
    · rename_i notSyncing
      split at result
      · rename_i label
        cases result
        rw [label]
        exact .finish there (by simpa using notSyncing)
      · cases result
  · cases result
    exact Event.Quiet.step trivial ⟨rfl, rfl, rfl, rfl, rfl, rfl, rfl, rfl⟩ fun _ => there ▸ .exits
  · cases result

theorem spaScrub_step {type : Option PoolScrubType} (result : spaScrub spa type = some spa') :
    Step spa (.scrub type) spa' := by
  unfold spaScrub at result
  split at result
  · cases result
  · rename_i idle
    cases result
    refine Event.Quiet.step trivial ⟨rfl, rfl, rfl, rfl, rfl, rfl, rfl, rfl⟩ fun quiet => ?_
    rw [idle]
    cases type with
    | none => exact .stays quiet
    | some type => exact .starts quiet

theorem exec_step (result : exec spa event = some spa') : Step spa event spa' := by
  have same {stop : Bool} {txg suspended : ℕ} :
      Same spa { spa with spaScrubStop := stop, spaScrubRestartTxg := txg, spaScrubSuspended := suspended } :=
    ⟨rfl, rfl, rfl, rfl, rfl, rfl, rfl, rfl⟩
  cases event with
  | logError zb found => exact spaLogError_step result
  | syncTake => exact errlogSyncTake_step result
  | syncWrite => exact errlogSyncWrite_step result
  | getLogs count => exact getErrlogLogs_step result
  | getLists get => exact getErrlogLists_step result
  | scrub type => exact spaScrub_step result
  | scrubStop | scrubResume =>
    simp only [exec] at result
    split at result <;> cases result
    exact Event.Quiet.step trivial same .stays
  | scrubRestart txg | scrubSuspend =>
    cases result
    exact Event.Quiet.step trivial same .stays
  | _ =>
    simp only [exec] at result
    split at result
    · cases result
    · rename_i there
      exact scrubThread_step there result

/-! ## Rotations -/

def Settled (spa : Spa) : Prop :=
  spa.spaScrubFinished = false ∧ ∀ sync ∈ spa.sync, sync.scrubFinished = false

def Phase.Needs (spa : Spa) : Phase → Prop
  | .waiting .unsynced => True
  | .waiting .syncing => spa.spaScrubFinished = false
  | .rotated => True
  | _ => Settled spa

/-- What `txg_wait_synced` is for: when a scrub begins, the rotation that the one before has asked
    for is done. -/
structure Rotations (spa : Spa) : Prop where
  taken : spa.sync ≠ none → spa.spaScrubFinished = false
  needs : ∀ thread ∈ spa.spaScrubThread, thread.phase.Needs spa

variable {phase : Phase}

theorem Phase.Begun.needs (begun : phase.Begun) : phase.Needs spa ↔ Settled spa := by
  cases phase <;> first | exact Iff.rfl | exact begun.elim

theorem Phase.needs_syncBegins (unfinished : spa.spaScrubFinished = false)
    (needs : phase.Needs spa) : (phase.syncBegins).Needs spa := by
  cases phase with
  | waiting progress =>
    cases progress with
    | unsynced => exact unfinished
    | syncing => exact needs
    | synced => exact needs
  | _ => exact needs

theorem Phase.needs_syncEnds (idle : spa.sync = none) (needs : phase.Needs spa) : (phase.syncEnds).Needs spa := by
  cases phase with
  | waiting progress =>
    cases progress with
    | unsynced => exact needs
    | syncing => exact ⟨needs, by simp [idle]⟩
    | synced => exact needs
  | _ => exact needs

theorem Settled.congr (settled : Settled spa) (finished : spa'.spaScrubFinished = spa.spaScrubFinished)
    (sync : spa'.sync = spa.sync) : Settled spa' := by
  unfold Settled
  rw [finished, sync]
  exact settled

theorem Phase.Needs.imp (needs : phase.Needs spa)
    (unfinished : spa.spaScrubFinished = false → spa'.spaScrubFinished = false)
    (settled : Settled spa → Settled spa') : phase.Needs spa' := by
  cases phase with
  | waiting progress =>
    cases progress with
    | unsynced => trivial
    | syncing => exact unfinished needs
    | synced => exact settled needs
  | rotated => trivial
  | _ => exact settled needs

theorem needs_mapPhase (keeps : ∀ phase : Phase, phase.Needs spa → (f phase).Needs spa)
    (needs : ∀ thread ∈ spa.spaScrubThread, thread.phase.Needs spa) :
    ∀ thread ∈ (spa.mapPhase f).spaScrubThread, thread.phase.Needs (spa.mapPhase f) := by
  intro thread there
  obtain ⟨before, isBefore, rfl⟩ := mem_map.mp there
  exact (keeps before.phase (needs before isBefore)).imp id id

theorem Rotations.step (rotations : Rotations spa) (step : Step spa event spa') : Rotations spa' := by
  obtain ⟨taken, needs⟩ := rotations
  cases step with
  | log | logs | lists => exact ⟨taken, fun thread there => (needs thread there).imp id id⟩
  | bail idle unfinished =>
    refine ⟨taken, ?_⟩
    refine needs_mapPhase (fun phase => Phase.needs_syncEnds idle) ?_
    exact needs_mapPhase (fun phase => Phase.needs_syncBegins unfinished) needs
  | take idle =>
    refine ⟨fun _ => rfl, ?_⟩
    refine needs_mapPhase (fun phase => Phase.needs_syncBegins rfl) fun thread there => ?_
    refine (needs thread there).imp (fun _ => rfl) fun settled => ⟨rfl, ?_⟩
    rintro sync ⟨⟩
    exact settled.1
  | write taken' | rotate taken' =>
    refine ⟨fun some_ => absurd rfl some_, ?_⟩
    refine needs_mapPhase (fun phase => Phase.needs_syncEnds rfl) fun thread there => ?_
    exact (needs thread there).imp id fun settled => ⟨settled.1, by simp⟩
  | quiet same moves =>
    have carry {phase : Phase} (needs : phase.Needs spa) : phase.Needs spa' :=
      needs.imp (fun unfinished => same.finished.trans unfinished) fun settled => settled.congr same.finished same.sync
    refine ⟨fun syncing => ?_, ?_⟩
    · rw [same.finished]
      exact taken (same.sync ▸ syncing)
    · generalize isBefore : spa.spaScrubThread = before, isAfter : spa'.spaScrubThread = after at moves
      rw [isBefore] at needs
      cases moves with
      | stays => exact fun thread there => carry (needs thread there)
      | starts =>
        rintro thread ⟨⟩
        trivial
      | begins begun =>
        rintro thread ⟨⟩
        have settled : Settled spa := needs _ rfl
        exact begun.needs.mpr (settled.congr same.finished same.sync)
      | works begun begun' =>
        rintro thread ⟨⟩
        have settled : Settled spa := begun.needs.mp (needs _ rfl)
        exact begun'.needs.mpr (settled.congr same.finished same.sync)
      | exits => simp
  | finish thread idle =>
    refine ⟨fun syncing => absurd idle syncing, ?_⟩
    rintro thread ⟨⟩
    trivial

/-! ## What is owed -/

def Scrubbed (kinds : Set PoolScrubType) (events : List Event) : Prop :=
  ∃ before type during after, events = before ++ .threadBegin type :: (during ++ .threadFinish true :: after) ∧
    type ∈ kinds ∧ ∀ complete, .threadFinish complete ∉ during

def BegunIn (type : PoolScrubType) (events : List Event) : Prop :=
  ∃ before during, events = before ++ .threadBegin type :: during ∧ ∀ complete, .threadFinish complete ∉ during

theorem Scrubbed.append (scrubbed : Scrubbed kinds events) (more : List Event) : Scrubbed kinds (events ++ more) := by
  obtain ⟨before, type, during, after, rfl, isKind, same⟩ := scrubbed
  exact ⟨before, type, during, after ++ more, by simp, isKind, same⟩

theorem BegunIn.append (begun : BegunIn type events)
    (unfinished : ∀ complete, event ≠ .threadFinish complete) : BegunIn type (events ++ [event]) := by
  obtain ⟨before, during, rfl, same⟩ := begun
  refine ⟨before, during ++ [event], by simp, fun complete member => ?_⟩
  rcases mem_append.mp member with inside | last
  · exact same complete inside
  · exact unfinished complete (mem_singleton.mp last).symm

theorem BegunIn.scrubbed (begun : BegunIn type events) (isKind : type ∈ kinds) :
    Scrubbed kinds (events ++ [.threadFinish true]) := by
  obtain ⟨before, during, rfl, same⟩ := begun
  exact ⟨before, type, during, [], by simp, isKind, same⟩

/-- Of an error after which these steps were done: it is held, and while a scrub is going on that had
    begun before it was logged, it is where the rotation keeps it. -/
structure Kept (zb : Zbookmark) (events : List Event) (spa : Spa) : Prop where
  held : Held zb spa
  secure : ∀ thread ∈ spa.spaScrubThread, thread.phase.Begun → Secure zb spa ∨ BegunIn thread.scrubType events

def Careful (kinds : Set PoolScrubType) (spa : Spa) : Event → Prop
  -- no error comes while a scrub has stopped its work, or has done it but not asked for the rotation
  | .logError .. => ∀ thread ∈ spa.spaScrubThread, thread.phase.Begun → spa.spaScrubActive = true
  -- a scrub ends when it is complete
  | .threadFinish _ => ∀ thread ∈ spa.spaScrubThread, thread.scrubType ∈ kinds ∧
      ∀ error, thread.phase = .ended error → scrubError spa error = .ok
  -- no report is made while the lists are being synced
  | .getLists _ => spa.sync = none
  | _ => True

theorem Same.secure (same : Same spa spa') : Secure zb spa' ↔ Secure zb spa := by
  unfold Secure
  rw [same.scrub, same.logScrub, same.sync]

theorem Same.held (same : Same spa spa') : Held zb spa' ↔ Held zb spa := by
  unfold Held
  rw [same.secure, same.finished, same.last, same.logLast, same.sync]

theorem Secure.step (secure : Secure zb spa) (unrotated : ∀ sync ∈ spa.sync, sync.scrubFinished = false)
    (step : Step spa event spa') : Secure zb spa' := by
  cases step with
  | log _ growsScrub => exact secure.imp_left fun member => growsScrub member
  | bail | logs | lists | finish => exact secure
  | take idle =>
    rcases secure with inList | inLog | ⟨sync, taken, -⟩
    · exact .inr (.inr ⟨_, rfl, inList⟩)
    · exact .inr (.inl inLog)
    · simp [idle] at taken
  | write taken =>
    rcases secure with inList | inLog | ⟨sync, taken', member⟩
    · exact .inl inList
    · exact .inr (.inl (inLog.syncErrorList _))
    · rw [taken, mem_some] at taken'
      exact .inr (.inl (inLog_of_mem (taken' ▸ member) _))
  | rotate taken _ rotated => simp [unrotated _ taken] at rotated
  | quiet same => exact same.secure.mpr secure

theorem Held.step (held : Held zb spa) (rotations : Rotations spa) (step : Step spa event spa')
    (kept : (∃ complete, event = .threadFinish complete) → Secure zb spa) : Held zb spa' := by
  cases step with
  | log growsLast growsScrub =>
    rcases held with secure | ⟨unfinished, inList | inLog⟩
    · exact .inl (secure.imp_left fun member => growsScrub member)
    · exact .inr ⟨unfinished, .inl (growsLast inList)⟩
    · exact .inr ⟨unfinished, .inr inLog⟩
  | bail | logs | lists => exact held
  | take idle =>
    rcases held with secure | ⟨unfinished, rest⟩
    · exact .inl (secure.step (by simp [idle]) (.take idle))
    · refine .inr ⟨rfl, .inr ⟨?_, ?_⟩⟩
      · rintro sync ⟨⟩
        exact unfinished
      · rcases rest with inList | ⟨-, inLog | ⟨sync, taken, -⟩⟩
        · exact .inr ⟨_, rfl, inList⟩
        · exact .inl inLog
        · simp [idle] at taken
  | write taken unlocked unrotated =>
    rcases held with secure | ⟨unfinished, inList | ⟨-, inLog | ⟨sync, taken', member⟩⟩⟩
    · exact .inl (secure.step (by simpa [taken] using unrotated) (.write taken unlocked unrotated))
    · exact .inr ⟨unfinished, .inl inList⟩
    · exact .inr ⟨unfinished, .inr ⟨by simp [Spa.mapPhase], .inl (inLog.syncErrorList _)⟩⟩
    · rw [taken, mem_some] at taken'
      exact .inr ⟨unfinished, .inr ⟨by simp [Spa.mapPhase], .inl (inLog_of_mem (taken' ▸ member) _)⟩⟩
  | rotate taken _ rotated =>
    have unfinished := rotations.taken (by simp [taken])
    rcases held with (inList | inLog | ⟨sync, taken', member⟩) | ⟨-, inList | ⟨unrotated, -⟩⟩
    · exact .inl (.inl inList)
    · exact .inr ⟨unfinished, .inr ⟨by simp [Spa.mapPhase], .inl (inLog.syncErrorList _)⟩⟩
    · rw [taken, mem_some] at taken'
      exact .inr ⟨unfinished, .inr ⟨by simp [Spa.mapPhase], .inl (inLog_of_mem (taken' ▸ member) _)⟩⟩
    · exact .inr ⟨unfinished, .inl inList⟩
    · simp [unrotated _ taken] at rotated
  | quiet same => exact same.held.mpr held
  | finish => exact .inl (kept ⟨_, rfl⟩)

theorem Phase.Begun.of_sync (begun : phase.syncBegins.Begun ∨ phase.syncEnds.Begun) : phase.Begun := by
  cases phase with
  | waiting progress => cases progress <;> simp [syncBegins, syncEnds, Begun] at begun
  | rotated => simp [syncBegins, syncEnds, Begun] at begun
  | _ => trivial

/-- The thread that has begun after a step had begun before it, or has begun in it. -/
theorem Step.begun (step : Step spa event spa') (there : thread ∈ spa'.spaScrubThread) (begun : thread.phase.Begun) :
    (∃ before ∈ spa.spaScrubThread, before.phase.Begun ∧ before.scrubType = thread.scrubType ∧
      ∀ complete, event ≠ .threadFinish complete) ∨ event = .threadBegin thread.scrubType := by
  cases step with
  | log | logs | lists => exact .inl ⟨thread, there, begun, rfl, by simp⟩
  | bail =>
    obtain ⟨after, isAfter, rfl⟩ := mem_map.mp there
    obtain ⟨before, isBefore, rfl⟩ := mem_map.mp isAfter
    exact .inl ⟨before, isBefore, .of_sync (.inl (.of_sync (.inr begun))), rfl, by simp⟩
  | take =>
    obtain ⟨before, isBefore, rfl⟩ := mem_map.mp there
    exact .inl ⟨before, isBefore, .of_sync (.inl begun), rfl, by simp⟩
  | write | rotate =>
    obtain ⟨before, isBefore, rfl⟩ := mem_map.mp there
    exact .inl ⟨before, isBefore, .of_sync (.inr begun), rfl, by simp⟩
  | quiet same moves unfinished =>
    generalize spa.spaScrubThread = before at moves
    rw [mem_def] at there
    rw [there] at moves
    cases moves with
    | stays => exact .inl ⟨thread, rfl, begun, rfl, unfinished⟩
    | starts => exact begun.elim
    | begins => exact .inr rfl
    | works begunBefore => exact .inl ⟨_, rfl, begunBefore, rfl, unfinished⟩
  | finish =>
    cases there
    exact begun.elim

theorem Kept.step (kept : Kept zb events spa) (rotations : Rotations spa) (careful : Careful kinds spa event)
    (unscrubbed : ¬Scrubbed kinds (events ++ [event])) (step : Step spa event spa') :
    Kept zb (events ++ [event]) spa' := by
  constructor
  · refine kept.held.step rotations step ?_
    rintro ⟨complete, rfl⟩
    cases step with
    | quiet same moves unfinished => exact absurd rfl (unfinished complete)
    | @finish type error thread idle =>
      obtain ⟨isKind, isComplete⟩ := careful _ thread
      refine (kept.secure _ thread trivial).resolve_right fun begun => unscrubbed ?_
      simpa [isComplete error rfl] using begun.scrubbed isKind
  · intro thread there begun
    rcases step.begun there begun with ⟨before, isBefore, begun', sameType, unfinished⟩ | isBegin
    · rcases kept.secure before isBefore begun' with secure | begunIn
      · exact .inl (secure.step (begun'.needs.mp (rotations.needs before isBefore)).2 step)
      · exact .inr (sameType ▸ begunIn.append unfinished)
    · exact .inr ⟨events, [], by rw [isBegin], by simp⟩

theorem kept_logError {found} (loaded : spa.spaLoadState ≠ .tryimport)
    (careful : Careful kinds spa (.logError zb found)) (step : Step spa (.logError zb found) spa') :
    Kept zb [] spa' := by
  cases step with
  | quiet _ _ _ _ unlogged => exact absurd rfl (unlogged zb found)
  | log growsLast growsScrub logged =>
    have logged := logged loaded
    constructor
    · split at logged
      · exact .inl (.inl logged)
      · rename_i notScrub
        simp only [Bool.or_eq_true, not_or, Bool.not_eq_true] at notScrub
        exact .inr ⟨notScrub.2, .inl logged⟩
    · intro thread there begun
      rw [if_pos (by simp [careful thread there begun])] at logged
      exact .inl (.inl logged)

/-! ## Reports -/

/-- The bookmarks that a loop copies out. It fails only where there is no room left. -/
theorem foldl_copyout (values : List (ℕ × ℕ × ℤ × ℕ)) {get} (full : get.ret = .enomem → get.count = 0) :
    ((values.foldl copyout get).ret = .enomem → (values.foldl copyout get).count = 0) ∧
    ((values.foldl copyout get).ret = .ok → get.ret = .ok ∧ get.out ⊆ (values.foldl copyout get).out ∧
      values ⊆ (values.foldl copyout get).out) := by
  induction values generalizing get with
  | nil => exact ⟨full, fun ok => ⟨ok, Subset.refl _, by simp⟩⟩
  | cons value rest ih =>
    rw [foldl_cons]
    unfold copyout
    split
    · rename_i failed
      obtain ⟨full', ok'⟩ := ih full
      exact ⟨full', fun ok => absurd (ok' ok).1 failed⟩
    · rename_i notFailed
      split
      · rename_i noRoom
        obtain ⟨full', ok'⟩ := @ih { get with ret := .enomem } fun _ => noRoom
        exact ⟨full', fun ok => absurd (ok' ok).1 (by simp)⟩
      · have isOk : get.ret = .ok := by simpa using notFailed
        obtain ⟨full', ok'⟩ := @ih { get with out := value :: get.out, count := get.count - 1 }
          fun failed => by simp [isOk] at failed
        refine ⟨full', fun ok => ?_⟩
        obtain ⟨-, kept, copied⟩ := ok' ok
        exact ⟨isOk, fun member inside => kept (mem_cons_of_mem _ inside),
          cons_subset.mpr ⟨kept mem_cons_self, copied⟩⟩

theorem InLog.processed (there : InLog zb obj) : zb.fields ∈ (obj.getD []).map nameToBookmark := by
  obtain ⟨names, rfl, member⟩ := there
  exact mem_map.mpr ⟨_, member, nameToBookmark_bookmarkToName zb⟩

/-- Of a call of `spa_get_errlog` that has read the logs. -/
structure ErrlogGet.Reads (get : ErrlogGet) (spa : Spa) : Prop where
  full : get.ret = .enomem → get.count = 0
  scrub : get.ret = .ok → ∀ zb, InLog zb spa.spaErrlogScrub → zb.fields ∈ get.out
  last : get.ret = .ok → spa.sync = none → spa.spaScrubFinished = false →
    ∀ zb, InLog zb spa.spaErrlogLast → zb.fields ∈ get.out

theorem reads_logs {count get}
    (result : get = if spa.spaScrubFinished then processErrorLog spa.spaErrlogScrub ⟨.ok, [], count⟩
      else processErrorLog spa.spaErrlogLast (processErrorLog spa.spaErrlogScrub ⟨.ok, [], count⟩)) :
    get.Reads spa := by
  obtain ⟨fullScrub, okScrub⟩ := @foldl_copyout ((spa.spaErrlogScrub.getD []).map nameToBookmark) ⟨.ok, [], count⟩ (by simp)
  obtain ⟨fullLast, okLast⟩ := foldl_copyout ((spa.spaErrlogLast.getD []).map nameToBookmark) fullScrub
  subst result
  cases finished : spa.spaScrubFinished with
  | true => exact ⟨fullScrub, fun ok zb there => (okScrub ok).2.2 there.processed, fun _ _ isFalse => by simp [finished] at isFalse⟩
  | false =>
    refine ⟨fullLast, fun ok zb there => ?_, fun ok _ _ zb there => (okLast ok).2.2 there.processed⟩
    obtain ⟨ok', kept, -⟩ := okLast ok
    exact kept ((okScrub ok').2.2 there.processed)

/-- While the logs are locked they do not change; a rotation may be asked for. -/
theorem reads_step (reads : ∀ get ∈ spa.get, get.Reads spa) (step : Step spa event spa') :
    ∀ get ∈ spa'.get, get.Reads spa' := by
  cases step with
  | log | bail => exact fun get there => ⟨(reads get there).full, (reads get there).scrub, (reads get there).last⟩
  | take => exact fun get there => ⟨(reads get there).full, (reads get there).scrub, fun _ idle => by simp [Spa.mapPhase] at idle⟩
  | write _ unlocked | rotate _ unlocked => simp [Spa.mapPhase, unlocked]
  | logs _ result =>
    rintro get ⟨⟩
    obtain ⟨full, scrub, last⟩ := reads_logs result
    exact ⟨full, scrub, last⟩
  | lists => simp
  | quiet same =>
    intro get there
    rw [same.get] at there
    obtain ⟨full, scrub, last⟩ := reads get there
    refine ⟨full, ?_, ?_⟩
    · rwa [same.logScrub]
    · rwa [same.logLast, same.sync, same.finished]
  | finish =>
    exact fun get there => ⟨(reads get there).full, (reads get there).scrub, fun _ _ unfinished => by simp [spaErrlogRotate] at unfinished⟩

theorem Held.reported {get} (held : Held zb spa) (reads : get.Reads spa) (idle : spa.sync = none) :
    let result := processErrorList spa.spaErrlistLast (processErrorList spa.spaErrlistScrub get)
    (result.ret = .ok ∧ zb.fields ∈ result.out) ∨ (result.ret = .enomem ∧ result.count = 0) := by
  intro result
  obtain ⟨fullScrub, okScrub⟩ := foldl_copyout (spa.spaErrlistScrub.map Zbookmark.fields) reads.full
  obtain ⟨fullLast, okLast⟩ := foldl_copyout (spa.spaErrlistLast.map Zbookmark.fields) fullScrub
  cases ret : result.ret with
  | enomem => exact .inr ⟨rfl, fullLast ret⟩
  | ok =>
    refine .inl ⟨rfl, ?_⟩
    obtain ⟨ok', keptLast, copiedLast⟩ := okLast ret
    obtain ⟨ok, keptScrub, copiedScrub⟩ := okScrub ok'
    rcases held with (inList | inLog | ⟨sync, taken, -⟩) | ⟨unfinished, inList | ⟨-, inLog | ⟨sync, taken, -⟩⟩⟩
    · exact keptLast (copiedScrub (mem_map_of_mem inList))
    · exact keptLast (keptScrub (reads.scrub ok zb inLog))
    · simp [idle] at taken
    · exact copiedLast (mem_map_of_mem inList)
    · exact keptLast (keptScrub (reads.last ok idle unfinished zb inLog))
    · simp [idle] at taken

/-! ## Runs -/

inductive Run (condition : Spa → Event → Prop) : Spa → List Event → Spa → Prop
  | nil {spa : Spa} : Run condition spa [] spa
  | cons {spa next spa' : Spa} {event : Event} {events : List Event} (meets : condition spa event)
      (result : exec spa event = some next) (rest : Run condition next events spa') :
      Run condition spa (event :: events) spa'

theorem Run.split {condition before after} (run : Run condition spa (before ++ after) spa') :
    ∃ mid, Run condition spa before mid ∧ Run condition mid after spa' := by
  induction before generalizing spa with
  | nil => exact ⟨spa, .nil, run⟩
  | cons event before ih =>
    cases run with
    | cons meets result rest =>
      obtain ⟨mid, first, second⟩ := ih rest
      exact ⟨mid, .cons meets result first, second⟩

structure Inv (spa : Spa) : Prop where
  loaded : spa.spaLoadState ≠ .tryimport
  rotations : Rotations spa
  reads : ∀ get ∈ spa.get, get.Reads spa

theorem Step.loaded (step : Step spa event spa') : spa'.spaLoadState = spa.spaLoadState := by
  cases step with
  | quiet same => exact same.loaded
  | _ => rfl

theorem Inv.step (inv : Inv spa) (step : Step spa event spa') : Inv spa' :=
  ⟨step.loaded ▸ inv.loaded, inv.rotations.step step, reads_step inv.reads step⟩

theorem Run.inv {condition} (run : Run condition spa events spa') (inv : Inv spa) : Inv spa' := by
  induction run with
  | nil => exact inv
  | cons _ result _ ih => exact ih (inv.step (exec_step result))

theorem Run.kept {before} (run : Run (Careful kinds) spa events spa') (inv : Inv spa)
    (kept : Kept zb before spa) (unscrubbed : ¬Scrubbed kinds (before ++ events)) : Kept zb (before ++ events) spa' := by
  induction run generalizing before with
  | nil => simpa using kept
  | @cons spa next spa' event events careful result _ ih =>
    have step := exec_step result
    rw [show before ++ event :: events = (before ++ [event]) ++ events by simp] at unscrubbed ⊢
    exact ih (inv.step step) (kept.step inv.rotations careful (fun scrubbed => unscrubbed (scrubbed.append _)) step) unscrubbed

theorem Spa.Opened.inv (opened : spa.Opened) : Inv spa :=
  ⟨opened.loaded, ⟨fun syncing => absurd opened.sync syncing, by simp [opened.thread]⟩, by simp [opened.get]⟩

/-- In every run in which no scrub ends before it is complete, no error is logged while a scrub is
    suspended or has ended its work without having asked for the rotation, and no report reads the
    lists while a sync has them: an error that was logged is in every report, until a scrub that began
    after it was logged has completed. A report fails only if its buffer is full. -/
theorem errlog_reports (opened : spa.Opened) {zb : Zbookmark} {found : Bool} {before after : List Event} {get : ErrlogGet}
    (run : Run (Careful kinds) spa (before ++ .logError zb found :: (after ++ [.getLists get])) spa')
    (unscrubbed : ¬Scrubbed kinds after) :
    (get.ret = .ok ∧ zb.fields ∈ get.out) ∨ (get.ret = .enomem ∧ get.count = 0) := by
  obtain ⟨spa₁, first, run⟩ := run.split
  have inv₁ := first.inv opened.inv
  cases run with
  | @cons _ spa₂ _ _ _ careful result rest =>
    have step := exec_step result
    have inv₂ := inv₁.step step
    obtain ⟨spa₃, middle, last⟩ := rest.split
    have inv₃ := middle.inv inv₂
    have kept := middle.kept inv₂ (kept_logError inv₁.loaded careful step) (by simpa using unscrubbed)
    cases last with
    | cons idle result rest =>
      cases exec_step result with
      | lists reading => exact kept.held.reported (inv₃.reads _ reading) idle
      | quiet _ _ _ unsaid => exact absurd rfl (unsaid get)

/-! ## Errors that are lost -/

def cleanSpa : Spa where
  spaLoadState := .none
  spaErrlistLast := []
  spaErrlistScrub := []
  spaErrlogLast := none
  spaErrlogScrub := none
  spaScrubActive := false
  spaScrubFinished := false
  spaScrubSuspended := 0
  spaScrubStop := false
  spaScrubRestartTxg := 0
  spaScrubThread := none
  sync := none
  get := none

theorem cleanSpa_opened : cleanSpa.Opened := ⟨by decide, rfl, rfl, rfl, rfl, rfl⟩

def damaged : Zbookmark := ⟨21, 7, 0, 3, by decide, by decide, by decide, by decide⟩

theorem exists_run {spa} (result : (events.foldlM exec spa).isSome = true) :
    ∃ spa', Run (fun _ _ => True) spa events spa' := by
  induction events generalizing spa with
  | nil => exact ⟨spa, .nil⟩
  | cons event events ih =>
    rw [foldlM_cons, bind_eq_bind] at result
    cases first : exec spa event with
    | none => simp [first] at result
    | some next =>
      rw [first, bind_some] at result
      obtain ⟨spa', rest⟩ := ih result
      exact ⟨spa', .cons trivial first rest⟩

theorem Scrubbed.members (scrubbed : Scrubbed kinds events) :
    (∃ type, .threadBegin type ∈ events) ∧ .threadFinish true ∈ events := by
  obtain ⟨before, type, during, after, rfl, -⟩ := scrubbed
  exact ⟨⟨type, by simp⟩, by simp⟩

def begunScrub : List Event :=
  [.scrub (some .everything), .syncTake, .threadBegin .everything, .threadLoop, .threadCheck]

def completedScrub : List Event := [.threadTraversed .ok, .threadDrained, .threadFinish true, .getLogs 4]

theorem begunScrub_run : ∃ spa, Run (Careful Set.univ) cleanSpa
    (begunScrub ++ Event.logError damaged false :: (completedScrub ++ [Event.getLists ⟨.ok, [damaged.fields], 3⟩])) spa := by
  apply Exists.intro
  iterate 5 apply Run.cons trivial rfl
  apply Run.cons (fun _ _ _ => rfl) rfl
  iterate 2 apply Run.cons trivial rfl
  apply Run.cons ?_ rfl
  · apply Run.cons trivial rfl
    exact Run.cons rfl rfl .nil
  · rintro thread ⟨⟩
    refine ⟨trivial, ?_⟩
    rintro error ⟨⟩
    rfl

/-- The error is logged while a scrub is at work, and reported after it has completed. -/
theorem errlog_reports_scrubbing : cleanSpa.Opened ∧ ∃ spa, Run (Careful Set.univ) cleanSpa
      (begunScrub ++ Event.logError damaged false :: (completedScrub ++ [Event.getLists ⟨.ok, [damaged.fields], 3⟩])) spa ∧
    (GetError.ok = .ok ∧ damaged.fields ∈ [damaged.fields] ∨ GetError.ok = .enomem ∧ 3 = 0) := by
  obtain ⟨spa, run⟩ := begunScrub_run
  refine ⟨cleanSpa_opened, spa, run, errlog_reports cleanSpa_opened run fun scrubbed => ?_⟩
  simpa [completedScrub] using scrubbed.members.1

def stoppedScrub : List Event :=
  [.scrub (some .everything), .syncTake, .syncWrite, .threadBegin .everything, .scrubStop, .threadLoop, .threadDrained,
    .threadFinish false, .syncTake, .syncWrite, .threadExit, .getLogs 4]

def suspendedScrub : List Event :=
  [.scrub (some .everything), .syncTake, .threadBegin .everything, .scrubSuspend, .threadLoop, .threadCheck]

def resumedScrub : List Event :=
  [.scrubResume, .threadWake, .threadCheck, .threadTraversed .ok, .threadDrained, .threadFinish true, .syncTake,
    .syncWrite, .getLogs 4]

/-- An error is not reported any more after a scrub was stopped, or after the end of a scrub that was
    suspended when it was logged; and it is not reported in the middle of a sync. -/
theorem errlog_loses :
    ((∃ spa, Run (fun _ _ => True) cleanSpa
        (Event.logError damaged false :: (stoppedScrub ++ [Event.getLists ⟨.ok, [], 4⟩])) spa) ∧
      ¬Scrubbed Set.univ stoppedScrub) ∧
    ((∃ spa, Run (fun _ _ => True) cleanSpa
        (suspendedScrub ++ Event.logError damaged false :: (resumedScrub ++ [Event.getLists ⟨.ok, [], 4⟩])) spa) ∧
      ¬Scrubbed Set.univ resumedScrub) ∧
    ((∃ spa, Run (fun _ _ => True) cleanSpa
        (Event.logError damaged false :: ([.syncTake, .getLogs 4] ++ [Event.getLists ⟨.ok, [], 4⟩])) spa) ∧
      ¬Scrubbed Set.univ [.syncTake, .getLogs 4]) := by
  refine ⟨⟨exists_run (by decide +kernel), fun scrubbed => ?_⟩, ⟨exists_run (by decide +kernel), fun scrubbed => ?_⟩,
    exists_run (by decide +kernel), fun scrubbed => ?_⟩
  · simpa [stoppedScrub] using scrubbed.members.2
  · simpa [resumedScrub] using scrubbed.members.1
  · simpa using scrubbed.members.1

end MacZfs.Errlog
