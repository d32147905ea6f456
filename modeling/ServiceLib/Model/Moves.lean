import ServiceLib.Model.Step

namespace ServiceLib

variable {T : ArgTypes} {n : Nat}

/-- Everything one step can do, a constructor for each branch of the source. -/
inductive Moves (s : Sys T n) (t : Tid n) : Choice T n → Move T n → Prop
  | call (op : Op T n) {k} (ht : t = .client k) (hs : s.stack t = []) :
      Moves s t (.call op) ⟨.called op, [op.enter], none, none⟩
  | callBack (op : Op T n) {rest} (hs : s.stack t = .user :: rest) :
      Moves s t (.call op) ⟨.called op, [op.enter, .user], none, none⟩
  | ret (b : Bool) {rest} (hs : s.stack t = .user :: rest) :
      Moves s t (.ret b) ⟨.returned b, [], some (.ret b), none⟩
  | invokeClient {f rest} (hs : s.stack t = .invoke (.client f) :: rest) :
      Moves s t .run ⟨.entered f, [.user], none, none⟩
  | invokeBound {k a p rest} (hs : s.stack t = .invoke (.bound k (some a) p) :: rest) :
      Moves s t .run ⟨.executed k (some a) p, [.user], none, none⟩
  | invokeEmpty {k p rest} (hs : s.stack t = .invoke (.bound k none p) :: rest) :
      Moves s t .run ⟨.executed k none p, [], some (.threw .badFunctionCall), none⟩
  | invokeSync {c k rest} (hs : s.stack t = .invoke (.syncDone (some c) k) :: rest) :
      Moves s t .run ⟨.tau, [.invoke c, .syncFinish k], none, none⟩
  | invokeSyncEmpty {k rest} (hs : s.stack t = .invoke (.syncDone none k) :: rest) :
      Moves s t .run ⟨.tau, [.syncFinish k], none, none⟩
  | syncFinish {k rest} (hs : s.stack t = .syncFinish k :: rest) :
      Moves s t .run ⟨.finished k, [], some (.ret true), none⟩
  | callUnknown {id prop args rest} (hs : s.stack t = .checkAndInvoke id prop args :: rest)
      (hl : s.mem.mappingLock.canLock t) (hr : s.mem.registry.actionMapping id = none) :
      Moves s t .run ⟨.tau, [], some (.ret false), none⟩
  | callMismatch {id prop args rest} {st : CallbackType T × String}
      (hs : s.stack t = .checkAndInvoke id prop args :: rest)
      (hl : s.mem.mappingLock.canLock t) (hr : s.mem.registry.actionMapping id = some st)
      (hty : args.getType ≠ st.2) :
      Moves s t .run ⟨.tau, [], some (.threw (.invalidArgument
        ("Expected type: <" ++ st.2 ++ ">, actual:" ++ args.getType))), none⟩
  | callAsync {id prop args rest} {st : CallbackType T × String}
      (hs : s.stack t = .checkAndInvoke id prop args :: rest)
      (hl : s.mem.mappingLock.canLock t) (hr : s.mem.registry.actionMapping id = some st)
      (hty : args.getType = st.2) (ha : prop.async = true) :
      Moves s t .run ⟨.lookedUp s.mem.fresh id args,
        [.schedule ⟨id, some (.bound s.mem.fresh st.1 args), prop.onCallDone.map .client,
          prop.waitForDone, prop.strand⟩], none, none⟩
  | callSync {id prop args rest} {st : CallbackType T × String}
      (hs : s.stack t = .checkAndInvoke id prop args :: rest)
      (hl : s.mem.mappingLock.canLock t) (hr : s.mem.registry.actionMapping id = some st)
      (hty : args.getType = st.2) (ha : prop.async = false) :
      Moves s t .run ⟨.lookedUp s.mem.fresh id args,
        [.invoke (.bound s.mem.fresh st.1 args), .syncOnDone prop.onCallDone], none, none⟩
  | syncOnDone {f b rest} (hs : s.stack t = .syncOnDone (some f) :: rest)
      (hr : s.result t = .ret b) :
      Moves s t .run ⟨.tau, [.invoke (.client f), .syncReturn (.ret b)], none, none⟩
  | syncNoDone {onDone rest} (hs : s.stack t = .syncOnDone onDone :: rest)
      (hr : onDone = none ∨ ∃ e, s.result t = .threw e) :
      Moves s t .run ⟨.tau, [], none, none⟩
  | syncReturn {o rest} (hs : s.stack t = .syncReturn o :: rest) :
      Moves s t .run ⟨.tau, [], some o, none⟩
  | registerForNull {id tuple rest} (hs : s.stack t = .registerFor id tuple none :: rest) :
      Moves s t .run ⟨.tau, [], some (.threw (.invalidArgument
        ("Null action specified for interface:" ++ id))), none⟩
  | registerFor {id tuple f rest} (hs : s.stack t = .registerFor id tuple (some f) :: rest) :
      Moves s t .run
        ⟨.tau, [.register id (some ⟨tuple, f⟩) (T.typeName tuple)], none, none⟩
  | registerEmpty {id typeId rest} (hs : s.stack t = .register id none typeId :: rest) :
      Moves s t .run ⟨.tau, [], some (.threw (.invalidArgument
        ("Empty function provided as callback, name=" ++ id))), none⟩
  | registerTwice {id a typeId rest} (hs : s.stack t = .register id (some a) typeId :: rest)
      (hl : s.mem.mappingLock.canLock t) (hr : s.mem.registry.isRegistered id) :
      Moves s t .run ⟨.tau, [], some (.threw (.logicError
        ("Duplicated registration for " ++ id ++ " - unregister firstly"))), none⟩
  | register {id a typeId rest} (hs : s.stack t = .register id (some a) typeId :: rest)
      (hl : s.mem.mappingLock.canLock t) (hr : s.mem.registry.isRegistered id = false) :
      Moves s t .run ⟨.stored id (some a, typeId),
        [.notifyLoop id 0 (s.mem.registry.watchers id).length], none, none⟩
  | notifyOne {id i len cb rest} (hs : s.stack t = .notifyLoop id i len :: rest)
      (hlen : (s.mem.registry.watchers id).length = len)
      (hi : (s.mem.registry.watchers id)[i]? = some cb) :
      Moves s t .run ⟨.tau, [.invoke (.client cb), .notifyLoop id (i + 1) len], none, none⟩
  | notifyEnd {id i len rest} (hs : s.stack t = .notifyLoop id i len :: rest)
      (hlen : (s.mem.registry.watchers id).length = len)
      (hi : (s.mem.registry.watchers id)[i]? = none) :
      Moves s t .run ⟨.notified id, [], some (.ret true), none⟩
  | unregister {id rest} (hs : s.stack t = .unregister id :: rest)
      (hl : s.mem.mappingLock.canLock t) (hr : s.mem.registry.isRegistered id) :
      Moves s t .run ⟨.erased id, [.cancelLoop id 0, .unregisterExit id], none, none⟩
  | unregisterUnknown {id rest} (hs : s.stack t = .unregister id :: rest)
      (hl : s.mem.mappingLock.canLock t) (hr : s.mem.registry.isRegistered id = false) :
      Moves s t .run ⟨.tau, [], some (.ret true), none⟩
  | unregisterExit {id rest} (hs : s.stack t = .unregisterExit id :: rest) :
      Moves s t .run ⟨.unregistered id, [], some (.ret true), none⟩
  | isRegistered {id rest} (hs : s.stack t = .isRegistered id :: rest)
      (hl : s.mem.mappingLock.canLock t) :
      Moves s t .run ⟨.tau, [], some (.ret (s.mem.registry.isRegistered id)), none⟩
  | subscribeRun {id cb rest} (hs : s.stack t = .subscribe id cb :: rest)
      (hl : s.mem.mappingLock.canLock t) (hr : s.mem.registry.isRegistered id) :
      Moves s t .run ⟨.ranAtOnce id cb, [.invoke (.client cb), .subscribeExit], none, none⟩
  | subscribe {id cb rest} (hs : s.stack t = .subscribe id cb :: rest)
      (hl : s.mem.mappingLock.canLock t) (hr : s.mem.registry.isRegistered id = false) :
      Moves s t .run ⟨.watched id cb, [], some (.ret true), none⟩
  | subscribeExit {rest} (hs : s.stack t = .subscribeExit :: rest) :
      Moves s t .run ⟨.released, [], some (.ret true), none⟩
  | schedule {req rest} (hs : s.stack t = .schedule req :: rest) (h0 : 0 < n) :
      Moves s t .run ⟨.tau, [.scan req ⟨0, h0⟩ 1 none], none, none⟩
  | scanRead {req res it rest} (hs : s.stack t = .scan req res it none :: rest) (hi : it < n) :
      Moves s t .run
        ⟨.tau, [.scan req res it (some (s.worker ⟨it, hi⟩).getLoad)], none, none⟩
  | scanCompare {req res it a rest} (hs : s.stack t = .scan req res it (some a) :: rest)
      (hi : it < n) :
      Moves s t .run ⟨.tau, [.scan req (if a < (s.worker res).getLoad then ⟨it, hi⟩ else res)
        (it + 1) none], none, none⟩
  | scanPlace {req res it rest} (hs : s.stack t = .scan req res it none :: rest) (hi : ¬it < n)
      (hstrand : req.strand = "") :
      Moves s t .run ⟨.tau, [Sys.place req res], none, none⟩
  | scanStrand {req res it rest} (hs : s.stack t = .scan req res it none :: rest) (hi : ¬it < n)
      (hstrand : req.strand ≠ "") :
      Moves s t .run ⟨.tau, [.bindStrand req res], none, none⟩
  | bindStrand {req idle rest} (hs : s.stack t = .bindStrand req idle :: rest) :
      Moves s t .run ⟨.bound req.strand ((s.mem.strands req.strand).getD idle),
        [Sys.place req ((s.mem.strands req.strand).getD idle)], none, none⟩
  | cancelNext {id i rest} (hs : s.stack t = .cancelLoop id i :: rest) (hi : i < n) :
      Moves s t .run
        ⟨.tau, [.cancelLock id ⟨i, hi⟩, .cancelLoop id (i + 1)], none, none⟩
  | cancelEnd {id i rest} (hs : s.stack t = .cancelLoop id i :: rest) (hi : ¬i < n) :
      Moves s t .run ⟨.tau, [], some (.ret true), none⟩
  | stopNext {i rest} (hs : s.stack t = .stopLoop i :: rest) (hi : i < n) :
      Moves s t .run ⟨.tau, [.stopCheck ⟨i, hi⟩, .stopLoop (i + 1)], none, none⟩
  | stopEnd {i rest} (hs : s.stack t = .stopLoop i :: rest) (hi : ¬i < n) :
      Moves s t .run ⟨.stopped, [], some (.ret true), none⟩
  | push {w name call onDone strand rest}
      (hs : s.stack t = .push w name call onDone strand :: rest)
      (hq : (s.worker w).queueLock = none) :
      Moves s t .run ⟨.pushed w ⟨call, onDone, name, s.mem.fresh⟩ strand,
        [.notify w], none, none⟩
  | notify {w rest} (hs : s.stack t = .notify w :: rest) :
      Moves s t .run ⟨.signalled w, [.increment w], none, none⟩
  | increment {w rest} (hs : s.stack t = .increment w :: rest) :
      Moves s t .run ⟨.counted w, [], some (.ret true), none⟩
  | doSync {w name call onDone strand rest}
      (hs : s.stack t = .doSync w name call onDone strand :: rest) :
      Moves s t .run ⟨.opened s.mem.fresh,
        [.push w name call (some (.syncDone onDone s.mem.fresh)) strand, .syncWait s.mem.fresh],
        none, none⟩
  | syncReturns {k rest} (hs : s.stack t = .syncWait k :: rest)
      (hf : (s.mem.syncCalls k).finished = true) :
      Moves s t .run ⟨.awaited k, [], some (.ret true), none⟩
  | syncSleep {k rest} (hs : s.stack t = .syncWait k :: rest)
      (hf : (s.mem.syncCalls k).finished = false) :
      Moves s t .run ⟨.dozed k, [.syncAsleep k], none, none⟩
  | syncWake {k rest} (hs : s.stack t = .syncAsleep k :: rest) :
      Moves s t .run ⟨.woke k, [.syncWait k], none, none⟩
  | cancelLock {id w rest} (hs : s.stack t = .cancelLock id w :: rest)
      (hq : (s.worker w).queueLock = none) :
      Moves s t .run ⟨.queueLocked w, [.cancelScan id w (s.worker w).calls], none, none⟩
  | cancelSkip {id w it left rest} (hs : s.stack t = .cancelScan id w (it :: left) :: rest)
      (hok : it.id = id → (s.worker w).executingLock = none ∧ (s.worker w).executing = false) :
      Moves s t .run ⟨.tau, [.cancelScan id w left], none, none⟩
  | cancelErase {id w rest} (hs : s.stack t = .cancelScan id w [] :: rest) :
      Moves s t .run ⟨.cancelled w id (s.worker w).calls, [], some (.ret true), none⟩
  | stopSkip {w rest} (hs : s.stack t = .stopCheck w :: rest)
      (ha : (s.worker w).active = false) :
      Moves s t .run ⟨.tau, [], some (.ret true), none⟩
  | stopCheck {w rest} (hs : s.stack t = .stopCheck w :: rest)
      (ha : (s.worker w).active = true) :
      Moves s t .run ⟨.tau, [.stopPoll w], none, none⟩
  | stopWait {w rest} (hs : s.stack t = .stopPoll w :: rest)
      (hq : (s.worker w).queueLock = none) (hc : (s.worker w).calls ≠ []) :
      Moves s t .run ⟨.tau, [.stopPoll w], none, none⟩
  | deactivate {w rest} (hs : s.stack t = .stopPoll w :: rest)
      (hq : (s.worker w).queueLock = none) (hc : (s.worker w).calls = []) :
      Moves s t .run ⟨.deactivated w, [.stopJoin w], none, none⟩
  | join {w rest} (hs : s.stack t = .stopJoin w :: rest) (hp : s.pc w = .exited) :
      Moves s t .run ⟨.joined w, [], some (.ret true), none⟩
  | enterLoop {w} (ht : t = .worker w) (hs : s.stack t = []) (hp : s.pc w = .test)
      (ha : (s.worker w).active = true) :
      Moves s t .run ⟨.tau, [], none, some .lock⟩
  | leave {w} (ht : t = .worker w) (hs : s.stack t = []) (hp : s.pc w = .test)
      (ha : (s.worker w).active = false) :
      Moves s t .run ⟨.left w, [], none, some .exited⟩
  | dequeue {w j left} (ht : t = .worker w) (hs : s.stack t = [])
      (hp : s.pc w = .lock ∨ s.pc w = .asleep ∨ s.pc w = .relock)
      (hq : (s.worker w).queueLock = none) (hc : (s.worker w).calls = j :: left) :
      Moves s t .run ⟨.dequeued w j, [], none, some (.acquire j)⟩
  | sleep {w} (ht : t = .worker w) (hs : s.stack t = [])
      (hp : s.pc w = .lock ∨ s.pc w = .asleep)
      (hq : (s.worker w).queueLock = none) (hc : (s.worker w).calls = [])
      (ha : (s.worker w).active = true) :
      Moves s t .run ⟨.slept w, [], none, some .asleep⟩
  | pass {w} (ht : t = .worker w) (hs : s.stack t = [])
      (hp : s.pc w = .relock ∨ (s.pc w = .lock ∨ s.pc w = .asleep) ∧ (s.worker w).active = false)
      (hq : (s.worker w).queueLock = none) (hc : (s.worker w).calls = []) :
      Moves s t .run ⟨.passed w, [], none, some .test⟩
  | begin {w j} (ht : t = .worker w) (hs : s.stack t = []) (hp : s.pc w = .acquire j)
      (he : (s.worker w).executingLock = none) :
      Moves s t .run ⟨.began w j, [], none, some (.action j)⟩
  | beginAction {w j c} (ht : t = .worker w) (hs : s.stack t = []) (hp : s.pc w = .action j)
      (hc : j.action = some c) :
      Moves s t .run ⟨.actionBegan w j, [.invoke c], none, some (.inAction j)⟩
  | endAction {w j} (ht : t = .worker w) (hs : s.stack t = []) (hp : s.pc w = .inAction j)
      {b} (hr : s.result t = .ret b) :
      Moves s t .run ⟨.actionEnded w j, [], none, some (.onDone j)⟩
  | beginOnDone {w j c} (ht : t = .worker w) (hs : s.stack t = []) (hp : s.pc w = .onDone j)
      (hc : j.onDone = some c) :
      Moves s t .run ⟨.onDoneBegan w j, [.invoke c], none, some (.inOnDone j)⟩
  | noOnDone {w j} (ht : t = .worker w) (hs : s.stack t = []) (hp : s.pc w = .onDone j)
      (hc : j.onDone = none) :
      Moves s t .run ⟨.tau, [], none, some (.finish j)⟩
  | endOnDone {w j} (ht : t = .worker w) (hs : s.stack t = []) (hp : s.pc w = .inOnDone j) :
      Moves s t .run ⟨.onDoneEnded w j, [], none, some (.finish j)⟩
  | finish {w j} (ht : t = .worker w) (hs : s.stack t = []) (hp : s.pc w = .finish j) :
      Moves s t .run ⟨.ended w j, [], none, some .relock⟩

namespace Sys

variable {s : Sys T n} {t : Tid n} {rest : List (Frame T n)} {mv : Move T n}

theorem invokeNext_moves {c : Callable T} (hs : s.stack t = .invoke c :: rest) :
    Moves s t .run (invokeNext c) := by
  rcases c with f | ⟨k, _ | a, p⟩ | ⟨_ | c, k⟩
  · exact .invokeClient hs
  · exact .invokeEmpty hs
  · exact .invokeBound hs
  · exact .invokeSyncEmpty hs
  · exact .invokeSync hs

theorem checkAndInvokeNext_moves {id : String} {prop : CallProperty} {args : ParamArgs T}
    (hs : s.stack t = .checkAndInvoke id prop args :: rest)
    (h : s.checkAndInvokeNext t id prop args = some mv) : Moves s t .run mv := by
  unfold checkAndInvokeNext at h
  split at h
  · rename_i hl
    cases hr : s.mem.registry.actionMapping id with
    | none =>
      rw [hr] at h
      cases h
      exact .callUnknown hs hl hr
    | some st =>
      rw [hr] at h
      by_cases hty : args.getType = st.2
      · simp only [ne_eq, hty, not_true_eq_false, if_false] at h
        cases ha : prop.async
        · simp only [ha, Bool.false_eq_true, if_false] at h
          cases h
          exact .callSync hs hl hr hty ha
        · simp only [ha, if_true] at h
          cases h
          exact .callAsync hs hl hr hty ha
      · simp only [ne_eq, hty, not_false_eq_true, if_true] at h
        cases h
        exact .callMismatch hs hl hr hty
  · cases h

theorem syncOnDoneNext_moves {onDone : Option ClientFn}
    (hs : s.stack t = .syncOnDone onDone :: rest) :
    Moves s t .run (s.syncOnDoneNext t onDone) := by
  cases hr : s.result t with
  | ret b =>
    cases onDone with
    | none =>
      simp only [syncOnDoneNext, hr]
      exact .syncNoDone hs (.inl rfl)
    | some f =>
      simp only [syncOnDoneNext, hr]
      exact .syncOnDone hs hr
  | threw e =>
    simp only [syncOnDoneNext, hr]
    exact .syncNoDone hs (.inr ⟨e, hr⟩)

theorem registerNext_moves {id typeId : String} {action : CallbackType T}
    (hs : s.stack t = .register id action typeId :: rest)
    (h : s.registerNext t id action typeId = some mv) : Moves s t .run mv := by
  cases action with
  | none =>
    cases h
    exact .registerEmpty hs
  | some a =>
    simp only [registerNext] at h
    split at h
    · rename_i hl
      split at h
      · rename_i hr
        cases h
        exact .registerTwice hs hl hr
      · rename_i hr
        cases h
        exact .register hs hl (by simpa using hr)
    · cases h

theorem notifyLoopNext_moves {id : String} {i len : Nat}
    (hs : s.stack t = .notifyLoop id i len :: rest)
    (h : s.notifyLoopNext id i len = some mv) : Moves s t .run mv := by
  simp only [notifyLoopNext] at h
  split at h
  · rename_i hlen
    split at h
    · rename_i cb hi
      cases h
      exact .notifyOne hs hlen hi
    · rename_i hi
      cases h
      exact .notifyEnd hs hlen hi
  · cases h

theorem unregisterNext_moves {id : String} (hs : s.stack t = .unregister id :: rest)
    (h : s.unregisterNext t id = some mv) : Moves s t .run mv := by
  unfold unregisterNext at h
  split at h
  · rename_i hl
    split at h
    · rename_i hr
      cases h
      exact .unregister hs hl hr
    · rename_i hr
      cases h
      exact .unregisterUnknown hs hl (by simpa using hr)
  · cases h

theorem subscribeNext_moves {id : String} {cb : ClientFn}
    (hs : s.stack t = .subscribe id cb :: rest)
    (h : s.subscribeNext t id cb = some mv) : Moves s t .run mv := by
  unfold subscribeNext at h
  split at h
  · rename_i hl
    split at h
    · rename_i hr
      cases h
      exact .subscribeRun hs hl hr
    · rename_i hr
      cases h
      exact .subscribe hs hl (by simpa using hr)
  · cases h

theorem scanNext_moves {req : Request T} {res : Fin n} {it : Nat} {load : Option SizeT}
    (hs : s.stack t = .scan req res it load :: rest)
    (h : s.scanNext req res it load = some mv) : Moves s t .run mv := by
  cases load with
  | none =>
    simp only [scanNext] at h
    split at h
    · rename_i hi
      cases h
      exact .scanRead hs hi
    · rename_i hi
      split at h
      · rename_i hstrand
        cases h
        exact .scanPlace hs hi hstrand
      · rename_i hstrand
        cases h
        exact .scanStrand hs hi hstrand
  | some a =>
    simp only [scanNext] at h
    split at h
    · rename_i hi
      cases h
      exact .scanCompare hs hi
    · cases h

theorem cancelLoopNext_moves {id : String} {i : Nat} (hs : s.stack t = .cancelLoop id i :: rest) :
    Moves s t .run (cancelLoopNext id i) := by
  unfold cancelLoopNext
  split
  · rename_i hi
    exact .cancelNext hs hi
  · rename_i hi
    exact .cancelEnd hs hi

theorem stopLoopNext_moves {i : Nat} (hs : s.stack t = .stopLoop i :: rest) :
    Moves s t .run (stopLoopNext i) := by
  unfold stopLoopNext
  split
  · rename_i hi
    exact .stopNext hs hi
  · rename_i hi
    exact .stopEnd hs hi

theorem syncWaitNext_moves {k : Nat} (hs : s.stack t = .syncWait k :: rest) :
    Moves s t .run (s.syncWaitNext k) := by
  unfold syncWaitNext
  split
  · rename_i hf
    exact .syncReturns hs hf
  · rename_i hf
    exact .syncSleep hs (by simpa using hf)

theorem cancelScanNext_moves {id : String} {w : Fin n} {left : List (JobContext T)}
    (hs : s.stack t = .cancelScan id w left :: rest)
    (h : s.cancelScanNext id w left = some mv) : Moves s t .run mv := by
  cases left with
  | nil =>
    cases h
    exact .cancelErase hs
  | cons it left =>
    simp only [cancelScanNext] at h
    split at h
    · cases h
    · rename_i hok
      cases h
      exact .cancelSkip hs (by simpa using hok)

theorem stopCheckNext_moves {w : Fin n} (hs : s.stack t = .stopCheck w :: rest) :
    Moves s t .run (s.stopCheckNext w) := by
  unfold stopCheckNext
  split
  · rename_i ha
    exact .stopCheck hs ha
  · rename_i ha
    exact .stopSkip hs (by simpa using ha)

theorem stopPollNext_moves {w : Fin n} (hs : s.stack t = .stopPoll w :: rest)
    (h : s.stopPollNext w = some mv) : Moves s t .run mv := by
  unfold stopPollNext at h
  split at h
  · rename_i hq
    split at h
    · rename_i hc
      cases h
      exact .deactivate hs hq (by simpa using hc)
    · rename_i hc
      cases h
      exact .stopWait hs hq (by simpa using hc)
  · cases h

theorem frameNext_moves {f : Frame T n} (hs : s.stack t = f :: rest)
    (h : s.frameNext t f = some mv) : Moves s t .run mv := by
  cases f with
  | user => cases h
  | invoke c => cases h; exact invokeNext_moves hs
  | syncFinish k => cases h; exact .syncFinish hs
  | checkAndInvoke id prop args => exact checkAndInvokeNext_moves hs h
  | syncOnDone onDone => cases h; exact syncOnDoneNext_moves hs
  | syncReturn o => cases h; exact .syncReturn hs
  | registerFor id tuple action =>
    cases h
    cases action with
    | none => exact .registerForNull hs
    | some f => exact .registerFor hs
  | register id action typeId => exact registerNext_moves hs h
  | notifyLoop id i len => exact notifyLoopNext_moves hs h
  | unregister id => exact unregisterNext_moves hs h
  | unregisterExit id => cases h; exact .unregisterExit hs
  | isRegistered id =>
    simp only [frameNext, isRegisteredNext] at h
    split at h
    · rename_i hl
      cases h
      exact .isRegistered hs hl
    · cases h
  | subscribe id cb => exact subscribeNext_moves hs h
  | subscribeExit => cases h; exact .subscribeExit hs
  | schedule req =>
    simp only [frameNext, scheduleNext] at h
    split at h
    · rename_i h0
      cases h
      exact .schedule hs h0
    · cases h
  | scan req res it load => exact scanNext_moves hs h
  | bindStrand req idle => cases h; exact .bindStrand hs
  | cancelLoop id i => cases h; exact cancelLoopNext_moves hs
  | stopLoop i => cases h; exact stopLoopNext_moves hs
  | push w name call onDone strand =>
    simp only [frameNext, pushNext] at h
    split at h
    · rename_i hq
      cases h
      exact .push hs hq
    · cases h
  | notify w => cases h; exact .notify hs
  | increment w => cases h; exact .increment hs
  | doSync w name call onDone strand => cases h; exact .doSync hs
  | syncWait k => cases h; exact syncWaitNext_moves hs
  | syncAsleep k => cases h; exact .syncWake hs
  | cancelLock id w =>
    simp only [frameNext, cancelLockNext] at h
    split at h
    · rename_i hq
      cases h
      exact .cancelLock hs hq
    · cases h
  | cancelScan id w left => exact cancelScanNext_moves hs h
  | stopCheck w => cases h; exact stopCheckNext_moves hs
  | stopPoll w => exact stopPollNext_moves hs h
  | stopJoin w =>
    simp only [frameNext, stopJoinNext] at h
    split at h
    · rename_i hp
      cases h
      exact .join hs hp
    · cases h

theorem runNext_moves {w : Fin n} (hs : s.stack (.worker w) = [])
    (h : s.runNext w = some mv) : Moves s (.worker w) .run mv := by
  cases hp : s.pc w with
  | test =>
    simp only [runNext, hp] at h
    split at h
    · rename_i ha
      cases h
      exact .enterLoop rfl hs hp ha
    · rename_i ha
      cases h
      exact .leave rfl hs hp (by simpa using ha)
  | lock | asleep =>
    simp only [runNext, hp] at h
    split at h
    · rename_i hq
      split at h
      · rename_i j left hc
        cases h
        exact .dequeue rfl hs (by simp [hp]) hq hc
      · rename_i hc
        split at h
        · rename_i ha
          cases h
          exact .sleep rfl hs (by simp [hp]) hq hc ha
        · rename_i ha
          cases h
          exact .pass rfl hs (.inr ⟨by simp [hp], by simpa using ha⟩) hq hc
    · cases h
  | relock =>
    simp only [runNext, hp] at h
    split at h
    · rename_i hq
      split at h
      · rename_i j left hc
        cases h
        exact .dequeue rfl hs (by simp [hp]) hq hc
      · rename_i hc
        cases h
        exact .pass rfl hs (.inl hp) hq hc
    · cases h
  | acquire j =>
    simp only [runNext, hp] at h
    split at h
    · rename_i he
      cases h
      exact .begin rfl hs hp he
    · cases h
  | action j =>
    simp only [runNext, hp, Option.map_eq_some_iff] at h
    obtain ⟨c, hc, rfl⟩ := h
    exact .beginAction rfl hs hp hc
  | inAction j =>
    simp only [runNext, hp] at h
    split at h
    · rename_i b hr
      cases h
      exact .endAction rfl hs hp hr
    · cases h
  | onDone j =>
    simp only [runNext, hp] at h
    split at h
    · rename_i c hc
      cases h
      exact .beginOnDone rfl hs hp hc
    · rename_i hc
      cases h
      exact .noOnDone rfl hs hp hc
  | inOnDone j =>
    simp only [runNext, hp] at h
    cases h
    exact .endOnDone rfl hs hp
  | finish j =>
    simp only [runNext, hp] at h
    cases h
    exact .finish rfl hs hp
  | exited => simp [runNext, hp] at h

/-- The inversion principle every invariant below is proved by. -/
theorem next_moves {i : Choice T n} (h : s.next t i = some mv) : Moves s t i mv := by
  cases i with
  | run =>
    cases hs : s.stack t with
    | nil =>
      cases t with
      | client k => simp [next, hs] at h
      | worker w =>
        simp only [next, hs] at h
        exact runNext_moves hs h
    | cons f rest =>
      cases t <;> simp only [next, hs] at h <;> exact frameNext_moves hs h
  | call op =>
    cases hs : s.stack t with
    | nil =>
      cases t with
      | client k =>
        simp only [next, hs, Option.some.injEq] at h
        exact h ▸ .call op rfl hs
      | worker w => simp [next, hs] at h
    | cons f rest =>
      cases f <;> simp only [next, hs, Option.some.injEq, reduceCtorEq] at h
      exact h ▸ .callBack op hs
  | ret b =>
    simp only [next] at h
    split at h
    · rename_i rest hs
      cases h
      exact .ret b hs
    · cases h

/-- The step of a thread inside a function of the library. -/
theorem next_frame {i : Choice T n} (h : s.next t i = some mv) {f : Frame T n}
    (hs : s.stack t = f :: rest) (hf : f ≠ .user) : s.frameNext t f = some mv := by
  cases i with
  | run => cases t <;> simpa only [next, hs] using h
  | call op => cases f <;> simp [next, hs] at h hf
  | ret b => cases f <;> simp [next, hs] at h hf

end Sys

/-- Every branch listed is one the source takes. -/
theorem Moves.next_eq {s : Sys T n} {t : Tid n} {i : Choice T n} {mv : Move T n}
    (h : Moves s t i mv) : s.next t i = some mv := by
  cases h
  case call k ht hs =>
    subst ht
    simp [Sys.next, hs]
  case enterLoop ht hs hp ha | leave ht hs hp ha | «begin» ht hs hp ha | beginAction ht hs hp ha
      | beginOnDone ht hs hp ha | noOnDone ht hs hp ha | endAction ht hs hp _ ha =>
    subst ht
    simp [Sys.next, hs, Sys.runNext, hp, ha]
  case dequeue ht hs hp hq hc =>
    subst ht
    rcases hp with hp | hp | hp <;> simp [Sys.next, hs, Sys.runNext, hp, hq, hc]
  case sleep ht hs hp hq hc ha =>
    subst ht
    rcases hp with hp | hp <;> simp [Sys.next, hs, Sys.runNext, hp, hq, hc, ha]
  case pass ht hs hp hq hc =>
    subst ht
    rcases hp with hp | ⟨hp | hp, ha⟩
    · simp [Sys.next, hs, Sys.runNext, hp, hq, hc]
    · simp [Sys.next, hs, Sys.runNext, hp, hq, hc, ha]
    · simp [Sys.next, hs, Sys.runNext, hp, hq, hc, ha]
  case endOnDone ht hs hp | finish ht hs hp =>
    subst ht
    simp [Sys.next, hs, Sys.runNext, hp]
  case syncNoDone onDone rest hs hr =>
    have hstep : s.syncOnDoneNext t onDone = ⟨.tau, [], none, none⟩ := by
      rcases hr with rfl | ⟨e, he⟩
      · cases hres : s.result t <;> simp [Sys.syncOnDoneNext, hres]
      · simp [Sys.syncOnDoneNext, he]
    simp [Sys.next, hs, Sys.frameNext, hstep]
  all_goals
    simp_all [Sys.next, Sys.frameNext, Sys.invokeNext, Sys.checkAndInvokeNext, Sys.syncOnDoneNext,
      Sys.registerForNext, Sys.registerNext, Sys.notifyLoopNext, Sys.unregisterNext,
      Sys.isRegisteredNext, Sys.subscribeNext, Sys.scheduleNext, Sys.scanNext, Sys.bindStrandNext,
      Sys.cancelLoopNext, Sys.stopLoopNext, Sys.pushNext, Sys.doSyncNext, Sys.syncWaitNext,
      Sys.cancelLockNext, Sys.cancelScanNext, Sys.stopCheckNext, Sys.stopPollNext,
      Sys.stopJoinNext]

/-- No frame that a step puts on top is of the given kind, by evaluation. -/
theorem Frame.forall_not {p : Frame T n → Bool} {l : List (Frame T n)} (h : l.any p = false) :
    ∀ f ∈ l, p f = false := by
  intro f hf
  simpa using List.any_eq_false.mp h f hf

/-- One step of the pool, read through the inversion principle. -/
theorem pool_step {s s' : Sys T n} {i : Tid n × Choice T n} {e : Tid n × Action T n}
    (h : (pool T n).step s i = some (e, s')) :
    ∃ mv, Moves s i.1 i.2 mv ∧ e = (i.1, mv.action) ∧ s' = s.apply i.1 mv := by
  obtain ⟨mv, hmv, he⟩ := Option.map_eq_some_iff.mp h
  obtain ⟨rfl, rfl⟩ := Prod.mk.inj he
  exact ⟨mv, Sys.next_moves hmv, rfl, rfl⟩

theorem Moves.step_eq {s : Sys T n} {t : Tid n} {i : Choice T n} {mv : Move T n}
    (h : Moves s t i mv) : (pool T n).step s (t, i) = some ((t, mv.action), s.apply t mv) := by
  simp [pool, h.next_eq]

/-- The one step the innermost function has. -/
theorem Moves.eq_of_frame {s : Sys T n} {t : Tid n} {i : Choice T n} {mv mv' : Move T n}
    {f : Frame T n} {rest : List (Frame T n)} (h : Moves s t i mv) (hs : s.stack t = f :: rest)
    (hf : f ≠ .user) (hnext : s.frameNext t f = some mv') : mv = mv' :=
  Option.some.inj ((Sys.next_frame h.next_eq hs hf).symm.trans hnext)

/-- `doJob` goes on only by its push. -/
theorem Moves.push_eq {s : Sys T n} {t : Tid n} {i : Choice T n} {mv : Move T n} {w : Fin n}
    {name strand : String} {call onDone : Option (Callable T)} {rest : List (Frame T n)}
    (h : Moves s t i mv) (hs : s.stack t = .push w name call onDone strand :: rest) :
    mv = ⟨.pushed w ⟨call, onDone, name, s.mem.fresh⟩ strand, [.notify w], none, none⟩ := by
  have hnext := Sys.next_frame h.next_eq hs (by simp)
  simp only [Sys.frameNext, Sys.pushNext] at hnext
  split at hnext
  · exact (Option.some.inj hnext).symm
  · cases hnext

end ServiceLib
