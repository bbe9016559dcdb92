import IoProcessor.Hal.TwiBus

/-! What one TWI bus keeps: what the active flag says about the queue at each
point of `await_suspend`, and the life of its requests from push to post. -/
namespace IoProcessor.Hal.Twi
open Library MemoryMap History Relation

theorem TwiRequest.wordStores_lt {req : TwiRequest} {k : Nat} {store : TwiRequest → TwiRequest}
    (h : req.wordStores[k]? = some store) : k < 5 := (List.getElem?_eq_some_iff.mp h).1

/-- The first words of the request are those of `req`. -/
def TwiRequest.Copied (k : Nat) (req r : TwiRequest) : Prop :=
  ∃ old, r = (req.wordStores.take k).foldl (fun r store => store r) old

namespace TwiRequest.Copied
variable {req r : TwiRequest} {k : Nat}

theorem zero : Copied 0 req r := ⟨r, rfl⟩

theorem word (h : Copied k req r) {store : TwiRequest → TwiRequest} (hw : req.wordStores[k]? = some store) :
    Copied (k+1) req (store r) := by
  obtain ⟨old, rfl⟩ := h
  refine ⟨old, ?_⟩
  rw [List.take_add_one, hw, List.foldl_append]
  rfl

/-- Five words are the whole request. -/
theorem all (h : Copied k req r) (h5 : 5 ≤ k) : r = req := by
  obtain ⟨old, rfl⟩ := h
  rw [List.take_of_length_le h5]
  rfl

theorem field (h : Copied k req r) (h5 : 5 ≤ k) : Copied (k+1) req r := by
  obtain ⟨old, rfl⟩ := h
  refine ⟨old, ?_⟩
  rw [List.take_of_length_le h5, List.take_of_length_le (h5.trans (Nat.le_succ k))]

end TwiRequest.Copied

/-- An inactive bus has nothing queued, except for the one request of an
`await_suspend` that has not popped it yet. It holds in every run. -/
def View.Settled (v : View) : Prop :=
  match v.stage with
  | .outside => v.active = true ∨ v.queue = []
  | .pushed => v.active = true ∨ v.queue.length ≤ 1
  | .tested => (v.active = true ∧ v.queue = []) ∨ (v.active = false ∧ v.queue.length ≤ 1)
  | .beginning req k =>
    (k ≤ 10 → v.active = false ∧ v.queue = [] ∧ TwiRequest.Copied k req v.request) ∧
      (11 ≤ k → v.active = true ∨ v.queue = [])

variable {rejects : Prop} {allowed : Stage → Bool → TwiRequest → Prop} {v w : View}

theorem ViewStep.settled (hs : ViewStep rejects allowed v w) (h : v.Settled) : w.Settled := by
  cases hs with
  | rejected ok c out full =>
    rw [View.Settled, out] at h
    rcases h with h | h
    · exact .inl h
    · simp [h] at full
  | accepted c req out room hh hr ht =>
    rw [View.Settled, out] at h
    exact h.imp_right fun h => by simp [h]
  | foundActive hs ha => exact .inl ha
  | foundIdle hs ha =>
    rw [View.Settled, hs] at h
    exact .inr ⟨ha, h.resolve_left (by simp [ha])⟩
  | foundEmpty hs hq => exact .inr hq
  | popped hs hq =>
    rw [View.Settled, hs] at h
    simp_all [View.Settled, TwiRequest.Copied.zero]
  | wordStored hs hw =>
    rw [View.Settled, hs] at h
    have hk := TwiRequest.wordStores_lt hw
    obtain ⟨ha, hq, hr⟩ := h.1 (by omega)
    exact ⟨fun _ => ⟨ha, hq, hr.word hw⟩, by omega⟩
  | fieldStored hs h5 h9 =>
    rw [View.Settled, hs] at h
    obtain ⟨ha, hq, hr⟩ := h.1 (by omega)
    exact ⟨fun _ => ⟨ha, hq, hr.field h5⟩, by omega⟩
  | activated hs => exact ⟨by omega, fun _ => .inl rfl⟩
  | begunDone hs h11 =>
    rw [View.Settled, hs] at h
    exact h.2 h11
  | accessed ok k hk he => exact h
  | finishedLast ok result hr hq =>
    unfold View.Settled at h ⊢
    cases hs : v.stage <;> simp_all
  | finishedNext ok result hr hq =>
    unfold View.Settled at h ⊢
    cases hs : v.stage with
    | outside => exact .inl rfl
    | pushed => exact .inl rfl
    | tested => simp_all
    | beginning req k => simp_all

/-- The request that `start_transfer` has popped and not yet made active. -/
def View.inHand (v : View) : List TwiRequest :=
  match v.stage with
  | .beginning req k => if k ≤ 10 then [req] else []
  | _ => []

theorem View.Settled.inHand_eq_nil (h : v.Settled) {next : TwiRequest} {rest : List TwiRequest}
    (hq : v.queue = next :: rest) : v.inHand = [] := by
  unfold View.Settled at h
  unfold View.inHand
  cases hs : v.stage <;> simp_all

/-- The order of the events of one bus: a transfer is begun when all earlier
ones are posted, and a request is posted once its result is final. -/
def BusOrder (pre : List Event) : Event → Prop
  | .begun _ => begunOf pre = postedOf pre
  | .resultWritten _ result => result ≠ .pending
  | .posted r h => r.handle = some h ∧ resultsOf pre = postedOf pre ++ [r]
  | _ => True

/-- Posting, the result pointer and the buffer are used only for a request that
has not been posted before. -/
def Dead (pre : List Event) : Event → Prop
  | .posted r _ | .resultWritten r _ | .bufferRead r _ | .bufferWritten r _ =>
    r.ticket ∉ (postedOf pre).map (·.ticket)
  | _ => True

instance (pre : List Event) : (e : Event) → Decidable (Dead pre e)
  | .posted r _ | .resultWritten r _ | .bufferRead r _ | .bufferWritten r _ =>
    inferInstanceAs (Decidable (r.ticket ∉ (postedOf pre).map (·.ticket)))
  | .suspended _ | .pushed _ | .begun _ | .finished _ _ => .isTrue trivial

/-- The life of the requests of one bus, read off its history. -/
structure View.Ledger (v : View) : Prop where
  pushed : pushedOf v.history = begunOf v.history ++ v.inHand ++ v.queue
  begun : begunOf v.history = postedOf v.history ++ if v.active then [v.request] else []
  results : resultsOf v.history = postedOf v.history
  handles : (handlesOf v.history).map some = (postedOf v.history).map (·.handle)
  finished : (finishedOf v.history).filter (·.handle.isSome) = postedOf v.history
  tickets : (pushedOf v.history).map (·.ticket) = List.range' 1 (pushedOf v.history).length
  complete : ∀ r ∈ pushedOf v.history, r.handle.isSome ∧ r.result.isSome
  order : AtEvery BusOrder v.history
  dead : AtEvery Dead v.history

/-- A request can be touched while its transfer is active, or when there has
been none yet. -/
def LiveOrNone (active : Bool) (req : TwiRequest) : Prop := active = true ∨ req = default

instance (active : Bool) (req : TwiRequest) : Decidable (LiveOrNone active req) :=
  inferInstanceAs (Decidable (_ ∨ _))

theorem View.ledger_init (ram : Memory) (b : Bus) : (viewOf (init ram) b).Ledger := by
  constructor <;> simp [viewOf, init, View.inHand, stageOf]

private theorem finishEvents_default (result : TwiResult) :
    finishEvents default result = [.finished default result] := rfl

theorem finishEvents_complete {r : TwiRequest} {c : Coro} (hc : r.handle = some c)
    (hr : r.result.isSome) (result : TwiResult) :
    finishEvents r result = [.finished r result, .resultWritten r result, .posted r c] := by
  simp [finishEvents, hc, hr]

namespace View.Ledger

theorem active_ticket (h : v.Ledger) (ha : v.active = true) :
    v.request.ticket ∉ (postedOf v.history).map (·.ticket) := by
  have hn : ((pushedOf v.history).map (·.ticket)).Nodup := h.tickets ▸ List.nodup_range'
  rw [h.pushed, h.begun, ha] at hn
  simp only [List.map_append, List.nodup_append, List.mem_append] at hn
  intro hm
  exact hn.1.1.2.2 _ hm _ (by simp) rfl

theorem active_complete (h : v.Ledger) (ha : v.active = true) :
    (∃ c, v.request.handle = some c) ∧ v.request.result.isSome := by
  have hm : v.request ∈ pushedOf v.history := by simp [h.pushed, h.begun, ha]
  exact ⟨Option.isSome_iff_exists.mp (h.complete _ hm).1, (h.complete _ hm).2⟩

/-- Steps that move no request out of the queue and the hands of
`start_transfer`, and whose events are none of a request's life. -/
theorem extend (h : v.Ledger) (ha : w.active = v.active) (hr : v.active = true → w.request = v.request)
    (hq : w.inHand ++ w.queue = v.inHand ++ v.queue) {u : List Event} (ht : w.history = v.history ++ u)
    (hu : pushedOf u = [] ∧ begunOf u = [] ∧ resultsOf u = [] ∧ postedOf u = [] ∧ handlesOf u = [])
    (hf : (finishedOf u).filter (·.handle.isSome) = []) (ho : AtEvery BusOrder (v.history ++ u))
    (hd : AtEvery Dead (v.history ++ u)) : w.Ledger := by
  have hsame : pushedOf w.history = pushedOf v.history ∧ begunOf w.history = begunOf v.history ∧
      resultsOf w.history = resultsOf v.history ∧ postedOf w.history = postedOf v.history ∧
      handlesOf w.history = handlesOf v.history := by simp [ht, hu]
  obtain ⟨hpush, hbeg, hres, hpost, hhand⟩ := hsame
  constructor
  case order => exact ht ▸ ho
  case dead => exact ht ▸ hd
  case pushed => rw [hpush, hbeg, List.append_assoc, hq, ← List.append_assoc, h.pushed]
  case begun =>
    rw [hbeg, hpost, h.begun, ha]
    cases hv : v.active
    · rfl
    · rw [hr hv]
  case results => rw [hres, hpost, h.results]
  case handles => rw [hhand, hpost, h.handles]
  case finished =>
    rw [hpost, ← h.finished, ht]
    simp [hf]
  case tickets => rw [hpush, h.tickets]
  case complete =>
    rw [hpush]
    exact h.complete

theorem congr (h : v.Ledger) (ht : w.history = v.history) (ha : w.active = v.active)
    (hr : v.active = true → w.request = v.request) (hq : w.inHand ++ w.queue = v.inHand ++ v.queue) :
    w.Ledger :=
  h.extend ha hr hq (ht.trans (List.append_nil _).symm) (by simp) rfl (by simpa using h.order) (by simpa using h.dead)

/-- An accepted await. -/
theorem push (h : v.Ledger) {c : Coro} {req : TwiRequest} (hin : v.inHand = []) (hh : req.handle = some c)
    (hr : req.result.isSome) (ht : req.ticket = (pushedOf v.history).length + 1) :
    View.Ledger { v with
      queue := v.queue ++ [req]
      stage := .pushed
      history := v.history ++ [.suspended c, .pushed req] } := by
  have hpush : pushedOf (v.history ++ [.suspended c, .pushed req]) = pushedOf v.history ++ [req] := by simp
  constructor
  case order => exact h.order.append (by simp [BusOrder])
  case dead => exact h.dead.append (by simp [Dead])
  case pushed =>
    rw [hpush, h.pushed, hin]
    simp [View.inHand]
  case begun => simpa using h.begun
  case results => simpa using h.results
  case handles => simpa using h.handles
  case finished => simpa using h.finished
  case tickets =>
    rw [hpush, List.map_append, h.tickets, List.length_append, List.length_singleton, List.range'_concat]
    simp [ht, Nat.add_comm]
  case complete =>
    rw [hpush, List.forall_mem_append, List.forall_mem_singleton]
    exact ⟨h.complete, by simp [hh], hr⟩

/-- A request made active: the one in the hands of `start_transfer`, or the
oldest of the queue. -/
theorem begin (h : v.Ledger) (ha : v.active = false) {req : TwiRequest}
    (hq : v.inHand ++ v.queue = req :: (w.inHand ++ w.queue)) (hr : w.request = req) (hw : w.active = true)
    (ht : w.history = v.history ++ [.begun req]) : w.Ledger := by
  have hbeg : begunOf w.history = begunOf v.history ++ [req] := by simp [ht]
  have hsame : pushedOf w.history = pushedOf v.history ∧ resultsOf w.history = resultsOf v.history ∧
      postedOf w.history = postedOf v.history ∧ handlesOf w.history = handlesOf v.history ∧
      finishedOf w.history = finishedOf v.history := by simp [ht]
  obtain ⟨hpush, hres, hpost, hhand, hfin⟩ := hsame
  constructor
  case order =>
    rw [ht]
    refine atEvery_concat.mpr ⟨h.order, ?_⟩
    simp [BusOrder, h.begun, ha]
  case dead =>
    rw [ht]
    exact h.dead.append (by simp [Dead])
  case pushed =>
    rw [hpush, hbeg, h.pushed, List.append_assoc, hq]
    simp
  case begun =>
    rw [hbeg, hpost, h.begun, ha, hw, hr]
    simp
  case results => rw [hres, hpost, h.results]
  case handles => rw [hhand, hpost, h.handles]
  case finished => rw [hfin, hpost, h.finished]
  case tickets => rw [hpush, h.tickets]
  case complete =>
    rw [hpush]
    exact h.complete

/-- The call of `finish` for the request of an active transfer, or for none. -/
theorem finish (h : v.Ledger) (ok : LiveOrNone v.active v.request) {result : TwiResult}
    (hr : result ≠ .pending) :
    { v with active := false, history := v.history ++ finishEvents v.request result }.Ledger := by
  rcases ok.symm with hd | ha
  · have ha : v.active = false := by
      by_contra ha
      obtain ⟨⟨c, hc⟩, -⟩ := h.active_complete (by simpa using ha)
      rw [hd] at hc
      cases hc
    rw [hd, finishEvents_default]
    exact h.extend ha.symm (fun _ => hd.symm) rfl rfl (by simp) rfl (h.order.append (by simp [BusOrder]))
      (h.dead.append (by simp [Dead]))
  · obtain ⟨⟨c, hc⟩, hs⟩ := h.active_complete ha
    have hbeg := h.begun
    rw [ha] at hbeg
    rw [finishEvents_complete hc hs]
    constructor
    case order =>
      rw [atEvery_append]
      refine ⟨h.order, ?_⟩
      simp [BusOrder, hr, hc, h.results]
    case dead =>
      rw [atEvery_append]
      refine ⟨h.dead, ?_⟩
      simpa [Dead] using h.active_ticket ha
    case pushed => simpa [View.inHand] using h.pushed
    case begun => simpa using hbeg
    case results => simpa using h.results
    case handles => simpa [hc] using h.handles
    case finished => simpa [hc] using h.finished
    case tickets => simpa using h.tickets
    case complete => simpa using h.complete

theorem access (h : v.Ledger) (ht : v.request.ticket ∉ (postedOf v.history).map (·.ticket)) {e : Event} {k : Nat}
    (he : e = .bufferRead v.request k ∨ e = .bufferWritten v.request k) :
    View.Ledger { v with history := v.history ++ [e] } := by
  refine h.extend rfl (fun _ => rfl) rfl rfl ?_ ?_ (h.order.append ?_) (atEvery_concat.mpr ⟨h.dead, ?_⟩)
  all_goals rcases he with rfl | rfl
  all_goals first | exact ht | simp [BusOrder]

end View.Ledger

theorem ViewStep.ledger (hs : ViewStep rejects allowed v w) (live : ∀ g a r, allowed g a r → LiveOrNone a r)
    (hset : v.Settled) (h : v.Ledger) : w.Ledger := by
  cases hs with
  | rejected ok c out full =>
    exact h.extend rfl (fun _ => rfl) (by simp [View.inHand, out]) rfl (by simp) rfl
      (h.order.append (by simp [BusOrder])) (h.dead.append (by simp [Dead]))
  | accepted c req out room hh hr ht =>
    exact h.push (by simp [View.inHand, out]) hh hr ht
  | foundActive hs ha => exact h.congr rfl rfl (fun _ => rfl) (by simp [View.inHand, hs])
  | foundIdle hs ha => exact h.congr rfl rfl (fun _ => rfl) (by simp [View.inHand, hs])
  | foundEmpty hs hq => exact h.congr rfl rfl (fun _ => rfl) (by simp [View.inHand, hs])
  | popped hs hq => exact h.congr rfl rfl (fun _ => rfl) (by simp [View.inHand, hs, hq])
  | wordStored hs hw =>
    have hk := TwiRequest.wordStores_lt hw
    rw [View.Settled, hs] at hset
    obtain ⟨ha, -⟩ := hset.1 (by omega)
    refine h.congr rfl rfl (by simp [ha]) ?_
    simp only [View.inHand, hs]
    rw [if_pos (by omega), if_pos (by omega)]
  | fieldStored hs h5 h9 =>
    refine h.congr rfl rfl (fun _ => rfl) ?_
    simp only [View.inHand, hs]
    rw [if_pos (by omega), if_pos (by omega)]
  | activated hs =>
    rw [View.Settled, hs] at hset
    obtain ⟨ha, hq, hr⟩ := hset.1 (by omega)
    exact h.begin ha (by simp [View.inHand, hs]) (hr.all (by omega)) rfl rfl
  | begunDone hs h11 =>
    refine h.congr rfl rfl (fun _ => rfl) ?_
    simp only [View.inHand, hs]
    rw [if_neg (by omega)]
  | @accessed e ok k hk he =>
    have ha : v.active = true := by
      refine (live _ _ _ ok).resolve_right fun hd => ?_
      rw [hd] at hk
      exact absurd hk (Nat.not_lt_zero k)
    exact h.access (h.active_ticket ha) he
  | finishedLast ok result hr hq => exact h.finish (live _ _ _ ok) hr
  | finishedNext ok result hr hq =>
    refine (h.finish (live _ _ _ ok) hr).begin rfl ?_ rfl rfl rfl
    have hin : v.inHand = [] := hset.inHand_eq_nil hq
    simp [View.inHand] at hin ⊢
    simp [hin, hq]

end IoProcessor.Hal.Twi
