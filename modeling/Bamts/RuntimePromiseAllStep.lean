import Bamts.RuntimePromiseAllKeep

/-! What the operations on the record of an aggregate, the callbacks and the steps of the loop leave. -/
set_option linter.all false
namespace Bamts.Runtime.PromiseAll
open Effect

-- A failure that ends the run, or a panic other than an underflow.
def Fatal (fault : Fault) : Prop := catchable fault = false ∧ fault ≠ .panicked .underflow

theorem fatalRuntime (kind) : Fatal (runtimeFault kind) := ⟨rfl,by rintro ⟨⟩⟩

theorem fatalUnexpected : Fatal (.panicked .unexpected) := ⟨rfl,by rintro ⟨⟩⟩

def Safe (fault : Fault) (t : Running) : Prop := fault ≠ .panicked .underflow ∧ (catchable fault = true → Inv t)

theorem Fatal.safe {fault t} (fatal : Fatal fault) : Safe fault t :=
  ⟨fatal.2,fun caught => absurd (fatal.1.symm.trans caught) Bool.false_ne_true⟩

def Denied (m : Machine) (fault : Fault) (t : Machine) : Prop :=
  (∃ kind, fault = runtimeFault kind ∧ t.heap = m.heap) ∨ fault = .panicked .unexpected

theorem Denied.fatal {m t fault} (denied : Denied m fault t) : Fatal fault := by
  rcases denied with ⟨kind,rfl,_⟩ | rfl
  · exact fatalRuntime kind
  · exact fatalUnexpected

theorem limitDenied {m fault} (limit : LimitFault m fault) {t} (heap : t.heap = m.heap) : Denied m fault t := by
  cases limit with
  | slots => exact Or.inl ⟨_,rfl,heap⟩
  | bytes => exact Or.inl ⟨_,rfl,heap⟩

theorem allocateSpecs (m entry) :
    After (allocate entry) m (fun v t => t.heap = m.heap ++ [entry] ∧ valueForHeapIndex m.heap.length = some v) (Denied m) := by
  unfold allocate
  simp only [afterBind,afterRead]
  apply afterCapacity
  · intro _
    split
    · rename_i v value
      exact ⟨rfl,value⟩
    · exact Or.inr rfl
  · exact fun _ limit => limitDenied limit rfl

theorem chargeSpecs (m index bytes) : After (chargeSlot index bytes) m (fun _ t => t.heap = m.heap) (Denied m) := by
  unfold chargeSlot
  simp only [afterBind,syncSlotLedger,afterUpdate,afterRead]
  apply afterCapacity
  · intro _
    simp only [afterIte,afterFail,afterUpdate]
    exact ⟨fun _ => rfl,fun _ => Or.inr rfl⟩
  · exact fun _ limit => (limitDenied limit rfl : Denied _ _ _)

theorem transferSpecs (m source destination bytes) :
    After (transferSlotCharge source destination bytes) m (fun _ t => t.heap = m.heap) (Denied m) := by
  unfold transferSlotCharge
  simp only [afterBind,syncSlotLedger,afterUpdate,afterRead,afterIte,afterFail]
  exact ⟨fun _ => Or.inr rfl,fun _ => trivial⟩

section

variable {s t : Running} {v : Value} {h : History} {i : Nat}

theorem afterMachine {α} {p : Exec α} {Q E} :
    After (onMachine p) s Q E ↔ After p s.machine (fun a m => Q a { s with machine := m }) (fun fault m => E fault { s with machine := m }) :=
  afterZoom

theorem afterAttempt {α} {p : Gathering α} {Q E}
    (tried : After p s (fun a t => Q (.ok a) t) (fun fault t => (∀ failure, fault = .failure failure → Q (.error failure) t) ∧
      ((∀ failure, fault ≠ .failure failure) → E fault t))) : After (attempt p) s Q E := by
  unfold attempt
  rw [afterTryCatch,afterBind]
  refine tried.mono (fun _ _ done => done) ?_
  intro fault t both
  cases fault with
  | failure failure => exact both.1 failure rfl
  | panicked site => exact both.2 (by rintro failure ⟨⟩)
  | callout callee this args => exact both.2 (by rintro failure ⟨⟩)

theorem indexKnown {Q E} (index : valueForHeapIndex i = some v)
    (found : s.machine.entry i ≠ .vacant → Q i s) (gone : ∀ kind, E (runtimeFault kind) s) : After (runtimeIndex v) s Q E := by
  unfold runtimeIndex runtimeSlot
  simp only [afterBind,afterMachine,afterRead]
  by_cases vacant : s.machine.entry i = .vacant
  · obtain ⟨kind,lost⟩ := slotVacant index vacant
    rw [lost]
    exact gone kind
  · rw [slotOfIndex index (entryFound rfl vacant) vacant]
    exact found vacant

theorem indexAny {Q E} (found : ∀ i, s.machine.slot v = .ok (some i) → Q i s)
    (lost : ∀ fault, fault ≠ .panicked .underflow → E fault s) : After (runtimeIndex v) s Q E := by
  have refused : ∀ fault, s.machine.slot v = .error fault → fault ≠ .panicked .underflow := by
    intro fault error
    unfold Machine.slot at error
    split at error
    · cases error
      rintro ⟨⟩
    · split at error
      · cases error
        rintro ⟨⟩
      · split at error
        · cases error
          rintro ⟨⟩
        · cases error
          rintro ⟨⟩
        · cases error
    · cases error
  unfold runtimeIndex runtimeSlot
  simp only [afterBind,afterMachine,afterRead]
  cases slot : s.machine.slot v with
  | error fault => exact lost fault (refused fault slot)
  | ok index =>
    cases index with
    | none => exact lost target (by rintro ⟨⟩)
    | some i => exact found i slot

theorem noteKnown {f} (known : s.histories v = some h) (u) :
    (if u = v then (s.histories u).map f else s.histories u) = if u = v then some (f h) else s.histories u := by
  split
  · rename_i same
    rw [same,known]
    rfl
  · rfl

theorem Inv.uncalledKnown (inv : Inv s) (known : s.histories v = some h) {j k} (at_ : s.machine.entry j = .promiseAllElement v k false) :
    h.gathered.answers[k]? = some none := by
  obtain ⟨g,found,none⟩ := inv.uncalled j v k at_
  rw [known] at found
  cases found
  exact none

theorem matchesFull {e} (same : Matches h e) (full : e ≠ .vacant) : ∃ reject values remaining settled,
    e = .promiseAll h.resolve reject values remaining settled ∧
    (settled = false → h.gathered.dropped = false ∧ h.gathered.delivered = [] ∧ h.gathered.Counted .undefined values remaining) ∧
    (settled = true → h.gathered.dropped = true ∨ h.gathered.delivered ≠ []) := by
  unfold Matches at same
  split at same
  · exact absurd rfl full
  · obtain ⟨rfl,pending,done⟩ := same
    exact ⟨_,_,_,_,rfl,pending,done⟩
  · exact same.elim

structure Still (s t : Running) : Prop where
  heap : t.machine.heap = s.machine.heap
  histories : t.histories = s.histories
  loops : t.loops = s.loops

theorem Still.inv (inv : Inv s) (still : Still s t) : Inv t := inv.aside (.same still.heap) still.histories still.loops

def Only (s : Running) (v : Value) : Prop :=
  ∀ (n : Nat) (activation : Activation) (stage : Stage), s.loops[n]? = some (activation,stage) → stage.isOpen = true → activation.aggregate ≠ v

theorem markSpec (inv : Inv s) {activation} (asks : Asks s.histories activation) (only : Only s activation.aggregate) :
    After (markPromiseAllSettled activation.aggregate) s (fun _ t => Inv t ∧ t.loops = s.loops) Safe := by
  obtain ⟨h,known,_,closed,_⟩ := asks
  obtain ⟨sound,i,index,_,same⟩ := inv.aggregates _ h known
  unfold markPromiseAllSettled
  rw [afterBind]
  refine indexKnown index (fun full => ?_) fun kind => (fatalRuntime kind).safe
  obtain ⟨reject,values,remaining,settled,entry,_⟩ := matchesFull same full
  simp only [afterBind,afterRead,entry,noteGathered,note,afterUpdate,afterMachine,setEntry,afterPure]
  refine ⟨inv.change known index (List.append_nil _).symm (by rintro x ⟨⟩) (noteKnown known) rfl
    ⟨sound.lawful.drop closed,sound.calls,sound.callees⟩ ⟨rfl,(by rintro ⟨⟩),fun _ => Or.inl rfl⟩ (fun j k at_ => inv.uncalledKnown known at_)
    (Or.inr only),trivial⟩

theorem addSpec (inv : Inv s) {activation} (asks : Asks s.histories activation) :
    After (addPromiseAllElement activation.aggregate) s
      (fun k t => Inv t ∧ t.loops = s.loops ∧ Asks t.histories activation ∧
        (∃ h, t.histories activation.aggregate = some h ∧ h.gathered.answers[k]? = some none) ∧
        ∀ j, t.machine.entry j ≠ .promiseAllElement activation.aggregate k false)
      (fun fault t => (∃ kind, fault = runtimeFault kind ∧ Still s t) ∨
        fault = .panicked .unexpected) := by
  obtain ⟨h,known,resolve,closed,dropped⟩ := asks
  obtain ⟨sound,i,index,inside,same⟩ := inv.aggregates _ h known
  unfold addPromiseAllElement
  rw [afterBind]
  refine indexKnown index (fun full => ?_) fun kind => Or.inl ⟨kind,rfl,⟨rfl,rfl,rfl⟩⟩
  obtain ⟨reject,values,remaining,settled,entry,pending,done⟩ := matchesFull same full
  cases settled with
  | true =>
    rcases done rfl with gone | some_
    · rw [dropped] at gone
      cases gone
    · exact absurd (sound.lawful.undelivered closed) some_
  | false =>
    obtain ⟨_,_,counted⟩ := pending rfl
    simp only [afterBind,afterRead,entry,afterIte,afterFail,afterMachine]
    refine ⟨fun _ => Or.inl ⟨_,rfl,⟨rfl,rfl,rfl⟩⟩,fun _ => ?_⟩
    apply afterCapacity
    · intro _
      refine (chargeSpecs s.machine i valueBytes).mono ?_ ?_
      · intro _ m heap
        simp only [setEntry,afterUpdate,noteGathered,note,afterPure]
        have length := counted.length
        have changed : Inv ⟨{ m with heap := m.heap.set i (.promiseAll h.resolve reject (values ++ [Value.undefined]) (remaining+1) false) },
            fun u => if u = activation.aggregate then (s.histories u).map fun h => { h with gathered := h.gathered.ask } else s.histories u,s.loops⟩ := by
          refine inv.change (e := .promiseAll h.resolve reject (values ++ [Value.undefined]) (remaining+1) false) known index (by rw [heap]; exact (List.append_nil _).symm) (by rintro x ⟨⟩) (noteKnown known) rfl
            ⟨sound.lawful.ask closed,sound.calls,sound.callees⟩ ⟨rfl,fun _ => ⟨dropped,sound.lawful.undelivered closed,counted.ask⟩,(by rintro ⟨⟩)⟩ ?_
            (Or.inl ⟨rfl,rfl,rfl⟩)
          intro j k at_
          have before := inv.uncalledKnown known at_
          dsimp only [Gather.ask]
          rw [List.getElem?_append_left (List.getElem?_eq_some_iff.mp before).1]
          exact before
        refine ⟨changed,trivial,⟨_,(noteKnown known _).trans (if_pos rfl),resolve,closed,dropped⟩,⟨_,by rw [if_pos trivial,known]; rfl,?_⟩,?_⟩
        · dsimp only [Gather.ask]
          rw [length,List.getElem?_append_right (Nat.le_refl _),Nat.sub_self]
          rfl
        · intro j at_
          have short : ∀ l, s.machine.entry l ≠ .promiseAllElement activation.aggregate values.length false := by
            intro l at_
            have bound := (List.getElem?_eq_some_iff.mp (inv.uncalledKnown known at_)).1
            omega
          by_cases here : j = i
          · subst here
            rw [Machine.entry,← List.append_nil (List.set ..),heap,entryHere inside] at at_
            cases at_
          · rw [Machine.entry,List.getD_eq_getElem?_getD] at at_
            rw [List.getElem?_set_ne (Ne.symm here),heap] at at_
            exact short j (by rwa [Machine.entry,List.getD_eq_getElem?_getD])
      · rintro fault m (⟨kind,rfl,heap⟩ | rfl)
        · exact Or.inl ⟨kind,rfl,⟨heap,rfl,rfl⟩⟩
        · exact Or.inr rfl
    · intro fault limit
      cases limit with
      | slots => exact Or.inl ⟨_,rfl,⟨rfl,rfl,rfl⟩⟩
      | bytes => exact Or.inl ⟨_,rfl,⟨rfl,rfl,rfl⟩⟩

end

section

variable {s : Running} {v : Value} {i : Nat}

theorem elementsOfLast {m array heap header values}
    (index : valueForHeapIndex heap.length = some array) (last : m.heap = heap ++ [HeapEntry.array header values true]) : elementsOf m array = values := by
  have found : m.heap[heap.length]? = some (.array header values true) := by
    rw [last,List.getElem?_append_right (Nat.le_refl _),Nat.sub_self]
    rfl
  have entry : m.entry heap.length = .array header values true := by
    rw [Machine.entry,List.getD_eq_getElem?_getD,found]
    rfl
  rw [elementsOf,slotOfIndex index found (by rintro ⟨⟩)]
  dsimp only
  rw [entry]

theorem moveSpec {resolve reject values remaining settled} (index : valueForHeapIndex i = some v)
    (entry : s.machine.entry i = .promiseAll resolve reject values remaining settled) :
    After (movePromiseAllValuesToArray v) s
      (fun array t => (∃ header, t.machine.heap = s.machine.heap.set i (.promiseAll resolve reject [] remaining settled) ++ [HeapEntry.array header values true]) ∧
        elementsOf t.machine array = values ∧ t.histories = s.histories ∧ t.loops = s.loops)
      (fun fault _ => Fatal fault) := by
  have inside : i < s.machine.heap.length := by
    by_contra long
    rw [Machine.entry,entryOutside (Nat.le_of_not_lt long)] at entry
    cases entry
  unfold movePromiseAllValuesToArray
  rw [afterBind]
  refine indexKnown index (fun _ => ?_) fatalRuntime
  rw [afterBind,afterRead,entry]
  rw [afterBind,afterMachine,createArray,afterBind,afterRead]
  refine (allocateSpecs s.machine _).mono ?_ fun fault m denied => denied.fatal
  intro array m made
  obtain ⟨heap,place⟩ := made
  have arrayFound : m.heap[s.machine.heap.length]? = some (plainArray s.machine []) := by
    rw [heap,List.getElem?_append_right (Nat.le_refl _),Nat.sub_self]
    rfl
  have slot : m.slot array = .ok (some s.machine.heap.length) := slotOfIndex place arrayFound (by rintro ⟨⟩)
  have stays : m.entry i = .promiseAll resolve reject values remaining settled := by
    rw [Machine.entry,heap,List.getD_eq_getElem?_getD,List.getElem?_append_left inside,← List.getD_eq_getElem?_getD]
    exact entry
  rw [afterBind,afterMachine]
  unfold runtimeSlot
  rw [afterBind,afterRead,slot,afterLiftOk]
  rw [afterBind,afterRead,stays]
  rw [afterBind,afterMachine]
  unfold setEntry
  rw [afterUpdate,afterBind,afterRead]
  have away : i ≠ s.machine.heap.length := Nat.ne_of_lt inside
  have arrayStays : Machine.entry { m with heap := m.heap.set i (.promiseAll resolve reject [] remaining settled) } s.machine.heap.length =
      plainArray s.machine [] := by
    rw [Machine.entry,List.getD_eq_getElem?_getD]
    rw [List.getElem?_set_ne away,arrayFound]
    rfl
  rw [arrayStays]
  dsimp only [plainArray]
  rw [afterBind,afterMachine,afterUpdate,afterBind,afterMachine]
  refine (transferSpecs _ _ _ _).mono ?_ fun fault m denied => denied.fatal
  intro _ t same
  have final : t.heap = s.machine.heap.set i (.promiseAll resolve reject [] remaining settled) ++
      [HeapEntry.array ⟨.empty,some s.machine.intrinsics.arrayPrototype,true⟩ values true] := by
    rw [same]
    rw [heap,List.set_append_left _ _ inside,List.set_append_right _ _ (by rw [List.length_set]),List.length_set,Nat.sub_self]
    rfl
  refine ⟨⟨_,final⟩,elementsOfLast ?_ final,rfl,rfl⟩
  rw [List.length_set]
  exact place

def History.delivers (h : History) (callee : Value) (values : List Value) : History :=
  { h with gathered := h.gathered.deliver values,callees := h.callees ++ [callee] }

theorem History.Sound.delivers {h : History} {values} (calls : h.callees = []) (none : h.gathered.delivered = [])
    (counted : h.gathered.Counted .undefined values 0) (kept : h.gathered.dropped = false) : (h.delivers h.resolve values).Sound := by
  refine ⟨Gather.lawfulDelivery none counted.complete.1 kept counted.complete.2,?_,?_⟩
  · rw [History.delivers,calls]
    dsimp only [Gather.deliver]
    rw [none]
    rfl
  · intro callee at_
    rw [History.delivers,calls] at at_
    exact List.mem_singleton.mp at_

theorem History.Sound.uncalled {h : History} (sound : h.Sound) (none : h.gathered.delivered = []) : h.callees = [] := by
  rw [← List.length_eq_zero_iff,sound.calls,none]
  rfl

theorem deliverSpec (h') {reject values h} (inv : Inv s) (known : s.histories v = some h) (index : valueForHeapIndex i = some v)
    {u} (heap : u.machine.heap = s.machine.heap.set i (.promiseAll h'.resolve reject values 0 true))
    (histories : ∀ w, u.histories w = if w = v then some h' else s.histories w) (loops : u.loops = s.loops)
    (calls : h'.callees = []) (waits : h'.gathered.delivered = []) (counted : h'.gathered.Counted .undefined values 0) (kept : h'.gathered.dropped = false)
    (uncalled : ∀ j k, s.machine.entry j = .promiseAllElement v k false → h'.gathered.answers[k]? = some none)
    (asks : (h'.resolve = h.resolve ∧ h'.gathered.closed = h.gathered.closed ∧ h'.gathered.dropped = h.gathered.dropped) ∨ Only s v) :
    After (movePromiseAllValuesToArray v) u
      (fun array t => After (callResolve v h'.resolve array) t (fun _ w => Inv w ∧ w.loops = s.loops) Safe) Safe := by
  obtain ⟨_,i',index',inside,_⟩ := inv.aggregates _ h known
  cases indexInjective index index'
  have entry : u.machine.entry i = .promiseAll h'.resolve reject values 0 true := by
    rw [Machine.entry,heap,← List.append_nil (List.set ..)]
    exact entryHere inside
  refine (moveSpec index entry).mono ?_ fun fault t fatal => fatal.safe
  rintro array t ⟨⟨header,moved⟩,elements,sameHistories,sameLoops⟩
  unfold callResolve note
  rw [afterBind,afterRead,afterUpdate,elements]
  refine ⟨inv.change (e := .promiseAll h'.resolve reject [] 0 true) known index ?_ (looseOne (e := .array header values true) rfl) ?_ (sameLoops.trans loops) (.delivers calls waits counted kept)
    ⟨rfl,(by rintro ⟨⟩),fun _ => Or.inr ?_⟩ uncalled asks,sameLoops.trans loops⟩
  · rw [moved,heap,List.set_set]
  · intro w
    dsimp only
    rw [sameHistories,histories]
    split
    · rfl
    · rfl
  · dsimp only [History.delivers,Gather.deliver]
    rw [waits]
    exact List.cons_ne_nil _ _

theorem finishSpec (inv : Inv s) {activation} (asks : Asks s.histories activation) (only : Only s activation.aggregate) :
    After (finishIteration activation) s (fun next t => Inv t ∧ t.loops = s.loops ∧ next.isOpen = false) Safe := by
  obtain ⟨h,known,resolve,closed,dropped⟩ := asks
  obtain ⟨sound,i,index,_,same⟩ := inv.aggregates _ h known
  unfold finishIteration finishPromiseAll noteGathered note
  rw [afterBind,afterUpdate,afterBind,afterBind]
  refine indexKnown index (fun full => ?_) fun kind => (fatalRuntime kind).safe
  obtain ⟨reject,values,remaining,settled,entry,pending,done⟩ := matchesFull same full
  have waits := sound.lawful.undelivered closed
  cases settled with
  | true =>
    rcases done rfl with gone | some_
    · rw [dropped] at gone
      cases gone
    · exact absurd waits some_
  | false =>
    obtain ⟨_,_,counted⟩ := pending rfl
    have positive := counted.positive closed
    have after := counted.close closed
    rw [afterBind,afterRead]
    rw [entry]
    dsimp only
    rw [if_neg Bool.false_ne_true,if_neg (Nat.ne_of_gt positive),afterBind,afterMachine]
    unfold setEntry
    rw [afterUpdate,afterPure]
    by_cases last : remaining-1 = 0
    · rw [last] at after ⊢
      rw [if_pos (beq_self_eq_true 0),afterBind,← resolve]
      have asked : ∀ j k, s.machine.entry j = .promiseAllElement activation.aggregate k false → h.gathered.answers[k]? = some none :=
        fun j k at_ => inv.uncalledKnown known at_
      refine After.mono (deliverSpec { h with gathered := h.gathered.close } inv known index rfl (noteKnown known) rfl
        (sound.uncalled waits) waits after dropped asked (Or.inr only)) ?_ fun _ _ safe => safe
      intro array t called
      rw [afterBind]
      refine called.mono ?_ fun _ _ safe => safe
      rintro _ w ⟨good,loops⟩
      exact ⟨good,loops,rfl⟩
    · rw [if_neg (by rwa [beq_iff_eq]),afterPure]
      refine ⟨inv.change known index (List.append_nil _).symm (by rintro x ⟨⟩) (noteKnown known) rfl ⟨?_,sound.calls,sound.callees⟩ ⟨rfl,?_,?_⟩
        (fun j k at_ => inv.uncalledKnown known at_) (Or.inr only),rfl,rfl⟩
      · refine Gather.lawfulWaiting waits (after.incomplete last) fun gone => ?_
        exact absurd ((dropped.symm.trans gone : false = true)) Bool.false_ne_true
      · exact fun _ => ⟨dropped,waits,after⟩
      · intro zero
        exact absurd (beq_iff_eq.mp zero) last

theorem callSpec (inv : Inv s) (element value) :
    After (resolvePromiseAllElement element value) s (fun _ t => Inv t ∧ t.loops = s.loops) Safe := by
  unfold resolvePromiseAllElement
  rw [afterBind]
  refine indexAny (fun place _ => ?_) fun fault other => ⟨other,fun _ => inv⟩
  rw [afterBind,afterRead]
  split
  · rename_i v k called entry
    rw [afterIte]
    refine ⟨fun _ => ⟨inv,rfl⟩,fun first => ?_⟩
    rw [Bool.not_eq_true] at first
    subst first
    obtain ⟨h,known,asked⟩ := inv.uncalled place v k entry
    rw [afterBind,afterMachine]
    unfold setEntry
    rw [afterUpdate]
    generalize used : ({ s with machine := { s.machine with heap := s.machine.heap.set place (.promiseAllElement v k true) } } : Running) = u
    obtain ⟨good,unused⟩ : Inv u ∧ ∀ j, u.machine.entry j ≠ .promiseAllElement v k false := by
      subst used
      exact inv.used entry rfl rfl rfl
    have knownAfter : u.histories v = some h := by
      subst used
      exact known
    have loops : u.loops = s.loops := by
      subst used
      rfl
    rw [← loops]
    obtain ⟨sound,i,index,_,same⟩ := good.aggregates v h knownAfter
    have waits := sound.lawful.waits asked
    have still : ∀ j l, u.machine.entry j = .promiseAllElement v l false → (h.gathered.answer k value).answers[l]? = some none := by
      intro j l at_
      have away : k ≠ l := by
        rintro rfl
        exact unused j at_
      rw [Gather.answer]
      rw [List.getElem?_set_ne away]
      exact good.uncalledKnown knownAfter at_
    unfold noteGathered note
    rw [afterBind,afterUpdate,afterBind]
    refine indexKnown index (fun full => ?_) fun kind => (fatalRuntime kind).safe
    obtain ⟨reject,values,remaining,settled,entry,pending,done⟩ := matchesFull same full
    rw [afterBind,afterRead]
    rw [entry]
    dsimp only
    cases settled with
    | true =>
      have gone := (done rfl).resolve_right fun some_ => some_ waits
      have same : u.machine.heap = u.machine.heap.set i (.promiseAll h.resolve reject values remaining true) ++ [] := by
        rw [List.append_nil]
        exact (setSelf (entryFound entry (by rintro ⟨⟩))).symm
      refine ⟨good.change knownAfter index same (by rintro x ⟨⟩) (noteKnown knownAfter) rfl
        ⟨sound.lawful.answer asked (Gather.incompleteOpen (sound.lawful.dropped gone)),sound.calls,sound.callees⟩
        ⟨rfl,(by rintro ⟨⟩),fun _ => Or.inl gone⟩ still (Or.inl ⟨rfl,rfl,rfl⟩),rfl⟩
    | false =>
      obtain ⟨kept,_,counted⟩ := pending rfl
      obtain ⟨positive,short⟩ := counted.awaited asked
      have after := counted.answer (a := value) asked
      rw [if_neg Bool.false_ne_true,if_neg (Nat.not_le.mpr short),if_neg (Nat.ne_of_gt positive),afterBind,afterMachine,afterUpdate,afterIte]
      constructor
      · intro last
        rw [last] at after ⊢
        rw [afterBind]
        exact deliverSpec { h with gathered := h.gathered.answer k value } good knownAfter index rfl (noteKnown knownAfter) rfl
          (sound.uncalled waits) waits after kept still (Or.inl ⟨rfl,rfl,rfl⟩)
      · intro more
        refine ⟨good.change knownAfter index (List.append_nil _).symm (by rintro x ⟨⟩) (noteKnown knownAfter) rfl
          ⟨sound.lawful.answer asked (after.incomplete more),sound.calls,sound.callees⟩ ⟨rfl,fun _ => ⟨kept,waits,after⟩,fun zero => ?_⟩ still
          (Or.inl ⟨rfl,rfl,rfl⟩),rfl⟩
        exact absurd (beq_iff_eq.mp zero) more
  · exact ⟨by rintro ⟨⟩,fun _ => inv⟩

theorem abruptSpec (inv : Inv s) {activation} (iterator failure) (asks : Asks s.histories activation) (only : Only s activation.aggregate) :
    After (rejectPromiseAllAbrupt activation iterator failure) s (fun next t => Inv t ∧ t.loops = s.loops ∧ next.isOpen = false) Safe := by
  unfold rejectPromiseAllAbrupt
  rw [afterBind]
  refine (markSpec inv asks only).mono ?_ fun _ _ safe => safe
  rintro _ t ⟨good,loops⟩
  exact ⟨good,loops,rfl⟩

def Stepped (s : Running) (activation : Activation) (next : Stage) (t : Running) : Prop :=
  Inv t ∧ t.loops = s.loops ∧ (next.isOpen = true → Asks t.histories activation)

theorem Stepped.closed {activation next t} (done : Inv t ∧ t.loops = s.loops ∧ next.isOpen = false) : Stepped s activation next t :=
  ⟨done.1,done.2.1,fun open_ => absurd (done.2.2.symm.trans open_) Bool.false_ne_true⟩

theorem abruptLater {t} (inv : Inv t) (loops : t.loops = s.loops) {activation} (iterator failure)
    (asks : Asks t.histories activation) (only : Only s activation.aggregate) :
    After (rejectPromiseAllAbrupt activation iterator failure) t (Stepped s activation) Safe := by
  have later : Only t activation.aggregate := by
    unfold Only
    rw [loops]
    exact only
  refine (abruptSpec inv iterator failure asks later).mono ?_ fun _ _ safe => safe
  rintro next u ⟨good,same,closed⟩
  exact .closed ⟨good,same.trans loops,closed⟩

theorem elementSpec (inv : Inv s) {activation} (iterator value) (asks : Asks s.histories activation) (only : Only s activation.aggregate) :
    After (addElement activation iterator value) s (Stepped s activation) Safe := by
  unfold addElement
  rw [afterBind]
  refine afterAttempt ((addSpec inv asks).mono ?_ ?_)
  · rintro k t ⟨good,loops,asksAfter,⟨h,known,asked⟩,fresh⟩
    rw [afterBind]
    refine afterAttempt (afterMachine.mpr ((allocateSpecs t.machine _).mono ?_ ?_))
    · rintro element m ⟨heap,_⟩
      have made : Inv { t with machine := m } := good.element known k asked fresh heap rfl rfl
      unfold promiseAllTarget
      rw [afterBind,afterBind,afterRead]
      split
      · rw [afterPure,afterBind]
        refine afterAttempt (afterMachine.mpr ((allocateSpecs m _).mono ?_ ?_))
        · rintro onFulfilled n ⟨after,_⟩
          exact ⟨made.aside (.append after (looseOne rfl)) rfl rfl,loops,fun _ => asksAfter⟩
        · rintro fault n (⟨kind,rfl,same⟩ | rfl)
          · refine ⟨?_,fun away => absurd rfl (away (.runtime kind))⟩
            rintro failure ⟨⟩
            exact abruptLater (made.aside (t := { t with machine := n }) (.same same) rfl rfl) loops iterator _ asksAfter only
          · exact ⟨by rintro failure ⟨⟩,fun _ => fatalUnexpected.safe⟩
      · exact fatalUnexpected.safe
    · rintro fault m (⟨kind,rfl,same⟩ | rfl)
      · refine ⟨?_,fun away => absurd rfl (away (.runtime kind))⟩
        rintro failure ⟨⟩
        exact abruptLater (good.aside (t := { t with machine := m }) (.same same) rfl rfl) loops iterator _ asksAfter only
      · exact ⟨by rintro failure ⟨⟩,fun _ => fatalUnexpected.safe⟩
  · rintro fault t (⟨kind,rfl,still⟩ | rfl)
    · refine ⟨?_,fun away => absurd rfl (away (.runtime kind))⟩
      rintro failure ⟨⟩
      exact abruptLater (still.inv inv) still.loops iterator _ (still.histories ▸ asks) only
    · exact ⟨by rintro failure ⟨⟩,fun _ => fatalUnexpected.safe⟩

theorem advanceSpec (inv : Inv s) (activation stage reply) (asks : stage.isOpen = true → Asks s.histories activation ∧ Only s activation.aggregate) :
    After (advance activation stage reply) s (Stepped s activation) Safe := by
  unfold advance
  split
  · exact ⟨inv,rfl,fun _ => (asks rfl).1⟩
  · rw [afterBind]
    refine (markSpec inv (asks rfl).1 (asks rfl).2).mono ?_ fun _ _ safe => safe
    rintro _ t ⟨good,loops⟩
    exact .closed ⟨good,loops,rfl⟩
  · exact (finishSpec inv (asks rfl).1 (asks rfl).2).mono (fun _ _ done => .closed done) fun _ _ safe => safe
  · exact elementSpec inv _ _ (asks rfl).1 (asks rfl).2
  · exact ⟨inv,rfl,fun _ => (asks rfl).1⟩
  · exact ⟨inv,rfl,fun _ => (asks rfl).1⟩
  · exact ⟨inv,rfl,fun _ => (asks rfl).1⟩
  · exact abruptLater inv rfl _ _ (asks rfl).1 (asks rfl).2
  · exact abruptLater inv rfl _ _ (asks rfl).1 (asks rfl).2
  · exact abruptLater inv rfl _ _ (asks rfl).1 (asks rfl).2
  · exact abruptLater inv rfl _ _ (asks rfl).1 (asks rfl).2
  · exact (fatalRuntime _).safe
  · exact .closed ⟨inv,rfl,rfl⟩
  · exact .closed ⟨inv,rfl,rfl⟩
  · exact ⟨by rintro ⟨⟩,fun _ => inv⟩
  · exact .closed ⟨inv,rfl,rfl⟩
  · exact .closed ⟨inv,rfl,rfl⟩
  · exact .closed ⟨inv,rfl,rfl⟩

end

end Bamts.Runtime.PromiseAll
