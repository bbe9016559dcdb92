import Mathlib.Logic.Relation
import IoProcessor.Hal.Twi

/-! One TWI bus as a machine of its own: its queue, the request and the active
flag of its transfer state, and how far an `await_suspend` on it has come. -/
namespace IoProcessor.Hal.Twi
open Library MemoryMap History Relation

@[simp] theorem filters_nil : pushedOf [] = [] ∧ begunOf [] = [] ∧ finishedOf [] = [] ∧ resultsOf [] = [] ∧
    postedOf [] = [] ∧ handlesOf [] = [] := ⟨rfl, rfl, rfl, rfl, rfl, rfl⟩

@[simp] theorem filters_append (t u : List Event) :
    pushedOf (t ++ u) = pushedOf t ++ pushedOf u ∧ begunOf (t ++ u) = begunOf t ++ begunOf u ∧
    finishedOf (t ++ u) = finishedOf t ++ finishedOf u ∧ resultsOf (t ++ u) = resultsOf t ++ resultsOf u ∧
    postedOf (t ++ u) = postedOf t ++ postedOf u ∧ handlesOf (t ++ u) = handlesOf t ++ handlesOf u :=
  ⟨List.filterMap_append, List.filterMap_append, List.filterMap_append, List.filterMap_append,
    List.filterMap_append, List.filterMap_append⟩

@[simp] theorem filters_cons (e : Event) (t : List Event) :
    pushedOf (e :: t) = (match e with | .pushed r => [r] | _ => []) ++ pushedOf t ∧
    begunOf (e :: t) = (match e with | .begun r => [r] | _ => []) ++ begunOf t ∧
    finishedOf (e :: t) = (match e with | .finished r _ => [r] | _ => []) ++ finishedOf t ∧
    resultsOf (e :: t) = (match e with | .resultWritten r _ => [r] | _ => []) ++ resultsOf t ∧
    postedOf (e :: t) = (match e with | .posted r _ => [r] | _ => []) ++ postedOf t ∧
    handlesOf (e :: t) = (match e with | .posted _ h => [h] | _ => []) ++ handlesOf t := by
  cases e <;> exact ⟨rfl, rfl, rfl, rfl, rfl, rfl⟩

/-- Whether the handler, with INT_FLAG set, posts the request in the transfer
state, writes its result or accesses its buffer. -/
def touchesRequest (state : TwiTransferState) (status : Word) : Bool :=
  if status = statStart ∨ status = statRepeatStart then false
  else if status = statAddrWAck then state.sentRegAddr
  else if status = statDataTxAck then ¬ (state.request.isRead ∧ state.sentRegAddr ∧ state.index = 0)
  else if status = statAddrRAck then false
  else if status = statDataRxAck then state.index < state.request.length
  else true

inductive Stage where
  | outside | pushed | tested
  | beginning (req : TwiRequest) (stage : Nat)

structure View where
  queue : List TwiRequest
  request : TwiRequest
  active : Bool
  stage : Stage
  history : List Event

def stageOf (pc : Pc) (b : Bus) : Stage :=
  match pc with
  | .outside => .outside
  | .pushed base => if busFor base = b then .pushed else .outside
  | .tested base => if busFor base = b then .tested else .outside
  | .beginning base req stage => if busFor base = b then .beginning req stage else .outside

def Device.view (d : Device) (stage : Stage) : View :=
  ⟨d.queue.toList, d.state.request, d.state.active, stage, d.history⟩

def viewOf (s : State) (b : Bus) : View :=
  ⟨(s.queue b).toList, (s.state b).request, (s.state b).active, stageOf s.pc b, s.history b⟩

def finishEvents (req : TwiRequest) (result : TwiResult) : List Event :=
  .finished req result :: (if req.result.isSome then [.resultWritten req result] else []) ++
    req.handle.toList.map (.posted req)

/-- Everything that can happen on one bus, with the guards of the code. A push
may be rejected only where that is admitted, and an interrupt touches the
request of the transfer state only where it is allowed to, for the stage of the
`await_suspend`, the active flag and the request it finds. -/
inductive ViewStep (rejects : Prop) (allowed : Stage → Bool → TwiRequest → Prop) : View → View → Prop where
  | rejected {v : View} (ok : rejects) (h : Coro) (out : v.stage = .outside) (full : v.queue.length = 8) :
      ViewStep rejects allowed v { v with stage := .pushed, history := v.history ++ [.suspended h] }
  | accepted {v : View} (h : Coro) (req : TwiRequest) (out : v.stage = .outside) (room : v.queue.length < 8)
      (hh : req.handle = some h) (hr : req.result.isSome)
      (ht : req.ticket = (pushedOf v.history).length + 1) :
      ViewStep rejects allowed v
        { v with
          queue := v.queue ++ [req]
          stage := .pushed
          history := v.history ++ [.suspended h, .pushed req] }
  | foundActive {v : View} (hs : v.stage = .pushed) (ha : v.active = true) :
      ViewStep rejects allowed v { v with stage := .outside }
  | foundIdle {v : View} (hs : v.stage = .pushed) (ha : v.active = false) :
      ViewStep rejects allowed v { v with stage := .tested }
  | foundEmpty {v : View} (hs : v.stage = .tested) (hq : v.queue = []) :
      ViewStep rejects allowed v { v with stage := .outside }
  | popped {v : View} {req : TwiRequest} {rest : List TwiRequest} (hs : v.stage = .tested)
      (hq : v.queue = req :: rest) :
      ViewStep rejects allowed v { v with queue := rest, stage := .beginning req 0 }
  | wordStored {v : View} {req : TwiRequest} {k : Nat} {store : TwiRequest → TwiRequest}
      (hs : v.stage = .beginning req k) (hw : req.wordStores[k]? = some store) :
      ViewStep rejects allowed v { v with request := store v.request, stage := .beginning req (k+1) }
  | fieldStored {v : View} {req : TwiRequest} {k : Nat} (hs : v.stage = .beginning req k) (h5 : 5 ≤ k)
      (h9 : k ≤ 9) : ViewStep rejects allowed v { v with stage := .beginning req (k+1) }
  | activated {v : View} {req : TwiRequest} (hs : v.stage = .beginning req 10) :
      ViewStep rejects allowed v
        { v with active := true, stage := .beginning req 11, history := v.history ++ [.begun req] }
  | begunDone {v : View} {req : TwiRequest} {k : Nat} (hs : v.stage = .beginning req k) (h11 : 11 ≤ k) :
      ViewStep rejects allowed v { v with stage := .outside }
  | accessed {v : View} {e : Event} (ok : allowed v.stage v.active v.request) (k : Nat)
      (hk : k < v.request.length.toNat) (he : e = .bufferRead v.request k ∨ e = .bufferWritten v.request k) :
      ViewStep rejects allowed v { v with history := v.history ++ [e] }
  | finishedLast {v : View} (ok : allowed v.stage v.active v.request) (result : TwiResult) (hr : result ≠ .pending)
      (hq : v.queue = []) :
      ViewStep rejects allowed v { v with active := false, history := v.history ++ finishEvents v.request result }
  | finishedNext {v : View} {next : TwiRequest} {rest : List TwiRequest} (ok : allowed v.stage v.active v.request)
      (result : TwiResult) (hr : result ≠ .pending) (hq : v.queue = next :: rest) :
      ViewStep rejects allowed v
        { v with
          queue := rest
          request := next
          active := true
          history := v.history ++ finishEvents v.request result ++ [.begun next] }

namespace Device

@[simp] theorem begin_view (d : Device) (req : TwiRequest) (g : Stage) :
    (d.begin req).view g = ⟨d.queue.toList, req, true, g, d.history ++ [.begun req]⟩ := rfl

@[simp] theorem orCntr_view (d : Device) (bits : Word) (g : Stage) : (d.orCntr bits).view g = d.view g := rfl

variable {rejects : Prop} {allowed : Stage → Bool → TwiRequest → Prop}

/-- What `finish` does before it looks for the next request. -/
theorem finish_eq (d : Device) (result : TwiResult) : ∃ e : Device,
    d.finish result = e.beginNext ∧ e.queue = d.queue ∧ e.state = { d.state with active := false } ∧
      e.history = d.history ++ finishEvents d.state.request result := by
  refine ⟨_, rfl, ?_⟩
  cases hr : d.state.request.result <;> cases hh : d.state.request.handle <;>
    simp [writeResult, post, orCntr, finishEvents, hr, hh]

theorem finish_view (d : Device) {result : TwiResult} (hr : result ≠ .pending) (g : Stage)
    (ok : allowed g d.state.active d.state.request) :
    ViewStep rejects allowed (d.view g) ((d.finish result).view g) := by
  obtain ⟨e, he, hq, hs, ht⟩ := d.finish_eq result
  rw [he, beginNext, hq]
  rcases d.queue.pop_cases with ⟨hp, hl⟩ | ⟨next, q, hp, hl⟩
  · have hv : e.view g = { d.view g with
        active := false
        history := (d.view g).history ++ finishEvents (d.view g).request result } := by
      simp [view, hq, hs, ht]
    simp only [hp, hv]
    exact .finishedLast ok result hr hl
  · have hv : (begin { e with queue := q } next).view g = { d.view g with
        queue := q.toList
        request := next
        active := true
        history := (d.view g).history ++ finishEvents (d.view g).request result ++ [.begun next] } := by
      rw [begin_view, ht]
      rfl
    simp only [hp, hv]
    exact .finishedNext ok result hr hl

theorem writeNextByte_view (d : Device) (g : Stage) (ok : allowed g d.state.active d.state.request) :
    ViewStep rejects allowed (d.view g) (d.writeNextByte.view g) := by
  unfold writeNextByte
  split
  · exact d.finish_view (by decide) g ok
  · rename_i hk
    exact .accessed ok d.state.index.toNat (Nat.lt_of_not_le hk) (.inl rfl)

theorem readNextByte_view (d : Device) (g : Stage)
    (ok : d.state.index < d.state.request.length → allowed g d.state.active d.state.request) :
    ReflTransGen (ViewStep rejects allowed) (d.view g) (d.readNextByte.view g) := by
  have hv : d.readNextByte.view g = d.storeByte.view g := by
    simp only [readNextByte]
    split <;> rfl
  rw [hv]
  unfold storeByte
  split
  · rename_i hk
    exact .single (.accessed (ok hk) d.state.index.toNat hk (.inr rfl))
  · exact .refl

theorem readNextByte_state (d : Device) :
    d.readNextByte.state.active = d.state.active ∧ d.readNextByte.state.request = d.state.request := by
  simp only [readNextByte, storeByte]
  repeat' split
  all_goals exact ⟨rfl, rfl⟩

/-- The handler as transitions of its bus: a transfer state whose request it
touches must be allowed. -/
theorem handleIsr_view (d : Device) (g : Stage)
    (ok : d.regs.cntr &&& cntrIntFlag ≠ 0 → touchesRequest d.state d.regs.stat = true →
      allowed g d.state.active d.state.request) :
    ReflTransGen (ViewStep rejects allowed) (d.view g) (d.handleIsr.view g) := by
  let Reaches (e : Device) : Prop := ReflTransGen (ViewStep rejects allowed) (d.view g) (e.view g)
  change Reaches d.handleIsr
  unfold handleIsr
  refine iteInduction (fun _ => .refl) fun hflag => ?_
  replace ok := ok hflag
  simp only [touchesRequest] at ok
  refine iteInduction (fun _ => .refl) fun hstart => ?_
  rw [if_neg hstart] at ok
  refine iteInduction (fun hw => ?_) fun hw => ?_
  · rw [if_pos hw] at ok
    change ReflTransGen _ _ _
    rw [orCntr_view]
    split
    · rename_i hsent
      exact .single (d.writeNextByte_view g (ok hsent))
    · exact .refl
  rw [if_neg hw] at ok
  refine iteInduction (fun htx => ?_) fun htx => ?_
  · rw [if_pos htx] at ok
    change ReflTransGen _ _ _
    rw [orCntr_view]
    split
    · exact .refl
    · rename_i hphase
      exact .single (d.writeNextByte_view g (ok (decide_eq_true hphase)))
  rw [if_neg htx] at ok
  refine iteInduction (fun _ => .refl) fun hra => ?_
  rw [if_neg hra] at ok
  refine iteInduction (fun hrx => ?_) fun hrx => ?_
  · rw [if_pos hrx] at ok
    change ReflTransGen _ _ _
    rw [orCntr_view]
    exact d.readNextByte_view g fun hk => ok (by simpa using hk)
  rw [if_neg hrx] at ok
  replace ok := ok rfl
  refine iteInduction (fun _ => ?_) fun _ => iteInduction (fun _ => ?_) fun _ => ?_
  · refine (d.readNextByte_view g fun _ => ok).tail (finish_view _ (by decide) g ?_)
    rw [d.readNextByte_state.1, d.readNextByte_state.2]
    exact ok
  · exact .single (d.finish_view (by decide) g ok)
  · exact .single (d.finish_view (by decide) g ok)

end Device

variable {rejects : Prop} {allowed : Stage → Bool → TwiRequest → Prop}

theorem viewOf_commit (s : State) (b : Bus) (base : Word) (d : Device) :
    viewOf (commit s base d) b = if busFor base = b then d.view (stageOf s.pc b) else viewOf s b := by
  by_cases h : busFor base = b
  · subst h
    simp [viewOf, commit, Device.view]
  · simp [viewOf, commit, h, Ne.symm h]

/-- What an await does to the view of each bus. -/
private theorem push_view (s : State) (b : Bus) (base : Word) (h : Coro)
    (request : TwiRequest) (result : Word) (hpc : s.pc = .outside)
    (hrej : busFor base = b → (s.queue b).toList.length = 8 → rejects) :
    ReflTransGen (ViewStep rejects allowed) (viewOf s b) (viewOf (awaitSuspendPush s base h request result) b) := by
  by_cases hb : busFor base = b
  · subst hb
    have hout : (viewOf s (busFor base)).stage = .outside := by simp [viewOf, hpc, stageOf]
    set req : TwiRequest := { request with
      handle := some h, result := some result, ticket := (pushedOf (s.history (busFor base))).length + 1 }
    apply ReflTransGen.single
    rcases (s.queue (busFor base)).push_cases req with ⟨hp, hl⟩ | ⟨q, hp, hq, hl⟩
    · have hs : ViewStep rejects allowed (viewOf s (busFor base)) _ := .rejected (hrej rfl hl) h hout hl
      simpa [awaitSuspendPush, viewOf, stageOf, hp, req] using hs
    · have hs : ViewStep rejects allowed (viewOf s (busFor base)) _ := .accepted h req hout hl rfl rfl rfl
      simpa [awaitSuspendPush, viewOf, stageOf, hp, hq, req] using hs
  · have hv : viewOf (awaitSuspendPush s base h request result) b = viewOf s b := by
      simp [awaitSuspendPush, viewOf, stageOf, hpc, hb, Ne.symm hb]
    rw [hv]

private theorem startTransferStep_other (s : State) {b : Bus} {base : Word} (hb : busFor base ≠ b)
    (hpc : s.pc = .pushed base ∨ s.pc = .tested base ∨ ∃ req k, s.pc = .beginning base req k) :
    viewOf (startTransferStep s) b = viewOf s b := by
  rcases hpc with hpc | hpc | ⟨req, k, hpc⟩ <;> simp only [startTransferStep, hpc]
  · split <;> simp [viewOf, stageOf, hpc, hb]
  · split <;> simp [viewOf, stageOf, hpc, hb, Ne.symm hb]
  · split
    · split <;> simp [viewOf, commit, stageOf, hpc, hb, Ne.symm hb]
    · simp [viewOf, stageOf, hpc, hb]

private theorem beginning_own (s : State) (base : Word)
    (req : TwiRequest) (k : Nat) (hpc : s.pc = .beginning base req k) :
    ViewStep rejects allowed (viewOf s (busFor base)) (viewOf (startTransferStep s) (busFor base)) := by
  have hst : (viewOf s (busFor base)).stage = .beginning req k := by simp [viewOf, hpc, stageOf]
  have hfield (h5 : 5 ≤ k) (h9 : k ≤ 9) : ViewStep rejects allowed (viewOf s (busFor base))
      { viewOf s (busFor base) with stage := .beginning req (k+1) } := .fieldStored hst h5 h9
  match k with
  | 0 | 1 | 2 | 3 | 4 =>
    have hs : ViewStep rejects allowed (viewOf s (busFor base)) _ := .wordStored hst rfl
    simpa [startTransferStep, hpc, Device.beginStores, TwiRequest.wordStores, viewOf, commit, device, stageOf] using hs
  | 5 | 6 | 7 | 8 | 9 =>
    simpa [startTransferStep, hpc, Device.beginStores, TwiRequest.wordStores, viewOf, commit, device, stageOf] using
      hfield (by omega) (by omega)
  | 10 =>
    have hs : ViewStep rejects allowed (viewOf s (busFor base)) _ := .activated hst
    simpa [startTransferStep, hpc, Device.beginStores, TwiRequest.wordStores, viewOf, commit, device, stageOf] using hs
  | 11 =>
    have hs : ViewStep rejects allowed (viewOf s (busFor base)) _ := .begunDone hst (by omega)
    simpa [startTransferStep, hpc, Device.beginStores, TwiRequest.wordStores, viewOf, commit, device, stageOf,
      Device.orCntr] using hs
  | k+12 =>
    have hs : ViewStep rejects allowed (viewOf s (busFor base)) _ := .begunDone hst (by omega)
    simpa [startTransferStep, hpc, Device.beginStores, TwiRequest.wordStores, viewOf, stageOf] using hs

private theorem pushed_own (s : State) (base : Word)
    (hpc : s.pc = .pushed base) :
    ViewStep rejects allowed (viewOf s (busFor base)) (viewOf (startTransferStep s) (busFor base)) := by
  have hst : (viewOf s (busFor base)).stage = .pushed := by simp [viewOf, hpc, stageOf]
  cases ha : (s.state (busFor base)).active with
  | true =>
    have hs : ViewStep rejects allowed (viewOf s (busFor base)) _ := .foundActive hst ha
    simpa [startTransferStep, hpc, viewOf, stageOf, ha] using hs
  | false =>
    have hs : ViewStep rejects allowed (viewOf s (busFor base)) _ := .foundIdle hst ha
    simpa [startTransferStep, hpc, viewOf, stageOf, ha] using hs

private theorem tested_own (s : State) (base : Word)
    (hpc : s.pc = .tested base) :
    ViewStep rejects allowed (viewOf s (busFor base)) (viewOf (startTransferStep s) (busFor base)) := by
  have hst : (viewOf s (busFor base)).stage = .tested := by simp [viewOf, hpc, stageOf]
  rcases (s.queue (busFor base)).pop_cases with ⟨hp, hl⟩ | ⟨req, q, hp, hl⟩
  · have hs : ViewStep rejects allowed (viewOf s (busFor base)) _ := .foundEmpty hst hl
    simpa [startTransferStep, hpc, viewOf, stageOf, hp] using hs
  · have hs : ViewStep rejects allowed (viewOf s (busFor base)) _ := .popped hst hl
    simpa [startTransferStep, hpc, viewOf, stageOf, hp] using hs

/-- An interrupt on the bus that touches the request of its transfer state. -/
def Touching (s : State) (b : Bus) : Prop :=
  (s.regs b.base).cntr &&& cntrIntFlag ≠ 0 ∧ touchesRequest (s.state b) (s.regs b.base).stat = true

instance (s : State) (b : Bus) : Decidable (Touching s b) := inferInstanceAs (Decidable (_ ∧ _))

/-- The bus whose queue an action pushes to. -/
def Action.awaits : Action → Option Bus
  | .coAwaitRead base _ _ _ _ _ | .coAwaitWrite base _ _ _ _ _ => some (busFor base)
  | _ => none

/-- What one step of the driver does to each bus. -/
theorem step_view (s : State) (a : Action) (b : Bus)
    (hrej : a.awaits = some b → (s.queue b).toList.length = 8 → rejects)
    (ok : a = .isr b → Touching s b → allowed (stageOf s.pc b) (s.state b).active (s.state b).request) :
    ReflTransGen (ViewStep rejects allowed) (viewOf s b) (viewOf (step s a) b) := by
  cases a with
  | coAwaitRead base h address regAddr dest result =>
    simp only [step]
    split
    · exact push_view s b base h _ result ‹_› fun hb => hrej (congrArg some hb)
    · exact .refl
  | coAwaitWrite base h address regAddr src result =>
    simp only [step]
    split
    · exact push_view s b base h _ result ‹_› fun hb => hrej (congrArg some hb)
    · exact .refl
  | proceed =>
    simp only [step]
    cases hpc : s.pc with
    | outside =>
      simp only [startTransferStep, hpc]
      exact .refl
    | pushed base =>
      by_cases hb : busFor base = b
      · exact .single (hb ▸ pushed_own s base hpc)
      · rw [startTransferStep_other s hb (.inl hpc)]
    | tested base =>
      by_cases hb : busFor base = b
      · exact .single (hb ▸ tested_own s base hpc)
      · rw [startTransferStep_other s hb (.inr (.inl hpc))]
    | beginning base req k =>
      by_cases hb : busFor base = b
      · exact .single (hb ▸ beginning_own s base req k hpc)
      · rw [startTransferStep_other s hb (.inr (.inr ⟨req, k, hpc⟩))]
  | hardware base cntr stat data => exact .refl
  | isr c =>
    simp only [step, handleIsr, viewOf_commit, busFor_base]
    split
    · subst c
      have hv : viewOf s b = (device s b.base).view (stageOf s.pc b) := by simp [viewOf, device, Device.view]
      rw [hv]
      refine (device s b.base).handleIsr_view _ fun hflag ht => ?_
      simpa [device] using ok rfl ⟨hflag, by simpa [device] using ht⟩
    · exact .refl

end IoProcessor.Hal.Twi
