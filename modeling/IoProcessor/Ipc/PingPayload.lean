import IoProcessor.Ipc.PingResponder
import IoProcessor.Library.ForwardCopy

/-! The payload of an echo: the bytes that its descriptor names, against the
payload of the descriptor it answers. -/
namespace IoProcessor.Ipc.Ping
open Library History

/-- `g_dram_echo_pool[tx_slot]`. -/
def slotAddr (pool txHead : Word) : Word := pool + 256 * ringSlot txHead

/-- The responder alone, with the timestamps that the timer gives it. -/
def responds (pool : Word) (s : State) (timestamps : List Word) : State :=
  History.run (step pool) s (timestamps.map .respond)

def echoOf (pool txHead : Word) (inDesc : IpcDescriptor) (timestamp : Word) : IpcDescriptor :=
  ⟨slotAddr pool txHead, inDesc.length, inDesc.msgType, inDesc.flags ||| 0x8000, timestamp⟩

/-- Memory behind the copy loop. -/
def copied (m : Memory) (dst : Word) (inDesc : IpcDescriptor) : Memory :=
  if inDesc.dramPayloadAddr ≠ 0 ∧ inDesc.length > 0 then
    m.copyUp dst inDesc.dramPayloadAddr (min inDesc.length.toNat 256)
  else m

section Run
variable (pool : Word)

theorem responds_append (s : State) (before after : List Word) :
    responds pool s (before ++ after) = responds pool (responds pool s before) after := by
  rw [responds, List.map_append, History.run_append]
  rfl

theorem responds_singleton (s : State) (t : Word) : responds pool s [t] = respond pool t s := rfl

/-- The copy loop, one byte a step. -/
theorem responds_copying (s : State) (rxHead rxTail txHead src copyLen : Word) (timestamps : List Word)
    (h : timestamps.length ≤ copyLen.toNat) :
    responds pool { s with responder := .copying rxHead rxTail txHead src copyLen 0 } timestamps =
      { s with
        ram := s.ram.copyUp (slotAddr pool txHead) src timestamps.length
        responder := .copying rxHead rxTail txHead src copyLen (BitVec.ofNat 32 timestamps.length) } := by
  induction timestamps using List.reverseRecOn with
  | nil => rfl
  | append_singleton ts t ih =>
    rw [List.length_append, List.length_singleton] at h
    have hlt := copyLen.isLt
    have hmore : BitVec.ofNat 32 ts.length < copyLen := by
      rw [BitVec.lt_def, BitVec.toNat_ofNat, Nat.mod_eq_of_lt (by omega)]
      omega
    rw [responds_append, ih (by omega), responds_singleton, respond]
    simp only [hmore, if_true, List.length_append, List.length_singleton, Memory.copyUp, slotAddr, BitVec.ofNat_add]
    rfl

/-- The five stores to the descriptor, and the publication. -/
theorem responds_filling (s : State) (rxHead rxTail txHead t0 t1 t2 t3 t4 : Word) :
    let inDesc := s.rx.descriptors (ringSlot rxTail)
    let filled := responds pool { s with responder := .filling rxHead rxTail txHead 0 } [t0, t1, t2, t3, t4]
    filled.trace = s.trace ∧ filled.ram = s.ram ∧ filled.responder = .filling rxHead rxTail txHead 5 ∧
      filled.tx.descriptors (ringSlot txHead) = echoOf pool txHead inDesc t4 := by
  simp [responds, step, respond, fillEcho, echoOf, slotAddr]

theorem respond_trace_grows (t : Word) (s : State) : s.trace <+: (respond pool t s).trace := by
  unfold respond
  dsimp only
  repeat' split
  all_goals first | exact List.prefix_rfl | exact List.prefix_append ..

theorem responds_trace_grows (s : State) (timestamps : List Word) :
    s.trace <+: (responds pool s timestamps).trace := by
  induction timestamps using List.reverseRecOn with
  | nil => exact List.prefix_rfl
  | append_singleton ts t ih =>
    rw [responds_append]
    exact ih.trans (respond_trace_grows pool t _)

variable {rxHead rxTail txHead : Word} {s : State} (hs : s.responder = .echoing rxHead rxTail txHead)
include hs

/-- The steps up to the first store to the descriptor. -/
theorem exists_copied :
    ∃ n, ∀ timestamps : List Word, timestamps.length = n → responds pool s timestamps =
      { s with
        ram := copied s.ram (slotAddr pool txHead) (s.rx.descriptors (ringSlot rxTail))
        responder := .filling rxHead rxTail txHead 0 } := by
  generalize hd : s.rx.descriptors (ringSlot rxTail) = inDesc
  by_cases hcopy : inDesc.dramPayloadAddr ≠ 0 ∧ inDesc.length > 0
  · let copyLen : Word := if inDesc.length > 256 then 256 else inDesc.length
    have hlen : copyLen.toNat = min inDesc.length.toNat 256 := by
      have hiff : inDesc.length > 256 ↔ 256 < inDesc.length.toNat := BitVec.lt_def
      have h256 : (256 : Word).toNat = 256 := rfl
      simp only [copyLen, hiff]
      split <;> omega
    refine ⟨copyLen.toNat + 2, fun timestamps ht => ?_⟩
    obtain ⟨t, ts, rfl⟩ := List.exists_cons_of_length_eq_add_one ht
    obtain ⟨ts, t', rfl⟩ : ∃ ts' t', ts = ts' ++ [t'] := by
      refine ⟨ts.dropLast, ts.getLast ?_, (List.dropLast_concat_getLast _).symm⟩
      rintro rfl
      simp at ht
    have hts : ts.length = copyLen.toNat := by simpa using ht
    have hfirst : respond pool t s =
        { s with responder := .copying rxHead rxTail txHead inDesc.dramPayloadAddr copyLen 0 } := by
      simp only [respond, hs, hd, if_pos hcopy]
      rfl
    have hend : ¬ BitVec.ofNat 32 copyLen.toNat < copyLen := by
      rw [BitVec.lt_def, BitVec.toNat_ofNat, Nat.mod_eq_of_lt copyLen.isLt]
      exact lt_irrefl _
    rw [show t :: (ts ++ [t']) = [t] ++ (ts ++ [t']) from rfl, responds_append, responds_singleton, hfirst, responds_append,
      responds_copying pool s _ _ _ _ _ ts hts.le, responds_singleton, respond, hts]
    simp only [if_neg hend]
    simp only [copied, if_pos hcopy, hlen]
  · refine ⟨1, fun timestamps ht => ?_⟩
    obtain ⟨t, rfl⟩ := List.length_eq_one_iff.mp ht
    rw [responds_singleton]
    simp only [respond, hs, hd, if_neg hcopy, copied]

/-- An echo is published after a number of steps, and its descriptor is complete
before that. -/
theorem exists_filled :
    ∃ n, ∀ timestamps : List Word, timestamps.length = n →
      let filled := responds pool s timestamps
      filled.trace = s.trace ∧ filled.responder = .filling rxHead rxTail txHead 5 ∧
        filled.ram = copied s.ram (slotAddr pool txHead) (s.rx.descriptors (ringSlot rxTail)) ∧
        ∃ t, filled.tx.descriptors (ringSlot txHead) = echoOf pool txHead (s.rx.descriptors (ringSlot rxTail)) t := by
  obtain ⟨n, hn⟩ := exists_copied pool hs
  refine ⟨n + 5, fun timestamps ht => ?_⟩
  obtain ⟨before, after, rfl, hbefore, hafter⟩ : ∃ before after, timestamps = before ++ after ∧ before.length = n ∧
      after.length = 5 := by
    refine ⟨timestamps.take n, timestamps.drop n, (List.take_append_drop ..).symm, ?_, ?_⟩
    · rw [List.length_take]
      omega
    · rw [List.length_drop]
      omega
  match after, hafter with
  | [t0, t1, t2, t3, t4], _ =>
    rw [responds_append, hn before hbefore]
    obtain ⟨htrace, hram, hresponder, hdescriptor⟩ := responds_filling pool
      { s with ram := copied s.ram (slotAddr pool txHead) (s.rx.descriptors (ringSlot rxTail)) } rxHead rxTail txHead
      t0 t1 t2 t3 t4
    exact ⟨htrace, hresponder, hram, t4, hdescriptor⟩

/-- An echo that has just been published. -/
theorem published_eq {timestamps : List Word} {out : IpcDescriptor}
    (h : (responds pool s timestamps).trace = s.trace ++ [Event.echoed out]) :
    (responds pool s timestamps).ram = copied s.ram (slotAddr pool txHead) (s.rx.descriptors (ringSlot rxTail)) ∧
      ∃ t, out = echoOf pool txHead (s.rx.descriptors (ringSlot rxTail)) t := by
  obtain ⟨n, hn⟩ := exists_filled pool hs
  have hlen := congrArg List.length h
  rw [List.length_append, List.length_singleton] at hlen
  rcases Nat.lt_trichotomy timestamps.length (n+1) with hlt | heq | hgt
  · -- Up to the last store nothing has been published.
    obtain ⟨htrace, -⟩ := hn (timestamps ++ List.replicate (n - timestamps.length) 0) (by simp; omega)
    have hle := (responds_trace_grows pool (responds pool s timestamps)
      (List.replicate (n - timestamps.length) 0)).length_le
    rw [← responds_append, htrace] at hle
    omega
  · obtain ⟨before, last, rfl⟩ : ∃ before last, timestamps = before ++ [last] := by
      refine ⟨timestamps.dropLast, timestamps.getLast ?_, (List.dropLast_concat_getLast _).symm⟩
      rintro rfl
      simp at heq
    obtain ⟨htrace, hresponder, hram, t, ht⟩ := hn before (by simpa using heq)
    rw [responds_append, responds_singleton, respond, hresponder] at h ⊢
    simp only [lt_irrefl, if_false, htrace, ht] at h ⊢
    exact ⟨hram, t, by simpa using h.symm⟩
  · -- The step behind the publication rings the doorbell.
    obtain ⟨before, rest, rfl, hbefore, hrest⟩ : ∃ before rest, timestamps = before ++ rest ∧ before.length = n ∧
        2 ≤ rest.length :=
      ⟨timestamps.take n, timestamps.drop n, (List.take_append_drop ..).symm, by simp; omega, by simp; omega⟩
    obtain ⟨htrace, hresponder, -⟩ := hn before hbefore
    match rest, hrest with
    | t0 :: t1 :: after, _ =>
      have hrung : (responds pool (responds pool s before) [t0, t1]).trace.length = s.trace.length + 2 := by
        simp [responds, step, respond] at hresponder htrace ⊢
        simp [hresponder, htrace]
      have hle := (responds_trace_grows pool (responds pool (responds pool s before) [t0, t1]) after).length_le
      rw [hrung, ← responds_append, ← responds_append] at hle
      simp only [List.cons_append, List.nil_append] at hle
      omega

/-- Every echo is published. -/
theorem exists_published : ∃ timestamps out, (responds pool s timestamps).trace = s.trace ++ [Event.echoed out] := by
  obtain ⟨n, hn⟩ := exists_filled pool hs
  obtain ⟨htrace, hresponder, -⟩ := hn (List.replicate n 0) (List.length_replicate ..)
  refine ⟨List.replicate n 0 ++ [0], (responds pool s (List.replicate n 0)).tx.descriptors (ringSlot txHead), ?_⟩
  rw [responds_append, responds_singleton, respond, hresponder]
  simp only [lt_irrefl, if_false, htrace]

end Run

/-- The payload that an echo names lies in the slot of the echo and repeats the
payload received, as it was when the responder turned to it. -/
structure Faithful (slot : Word) (inDesc out : IpcDescriptor) (old new : Memory) : Prop where
  inSlot : ∀ k < out.length.toNat, ∃ j < 256, out.dramPayloadAddr + BitVec.ofNat 32 k = slot + BitVec.ofNat 32 j
  bytes : ∀ k < inDesc.length.toNat,
    new (out.dramPayloadAddr + BitVec.ofNat 32 k) = old (inDesc.dramPayloadAddr + BitVec.ofNat 32 k)

/-- Every echo of a descriptor is faithful, whatever memory holds. -/
def EchoesFaithfully (pool rxHead rxTail txHead : Word) (inDesc : IpcDescriptor) : Prop :=
  ∀ s : State, s.responder = .echoing rxHead rxTail txHead → s.rx.descriptors (ringSlot rxTail) = inDesc →
    ∀ timestamps out, (responds pool s timestamps).trace = s.trace ++ [Event.echoed out] →
      Faithful (slotAddr pool txHead) inDesc out s.ram (responds pool s timestamps).ram

/-- A payload that fits into the slot and is really copied to it, from a place
that the copy does not run over. -/
def Copyable (slot : Word) (inDesc : IpcDescriptor) : Prop :=
  inDesc.length = 0 ∨ (inDesc.length.toNat ≤ 256 ∧ (inDesc.dramPayloadAddr = slot ∨
    (inDesc.dramPayloadAddr ≠ 0 ∧ inDesc.length.toNat ≤ (slot - inDesc.dramPayloadAddr).toNat)))

section Payload
variable {pool rxHead rxTail txHead : Word} {inDesc : IpcDescriptor}

/-- What faithful echoes say about one memory. -/
theorem EchoesFaithfully.copied (h : EchoesFaithfully pool rxHead rxTail txHead inDesc) (m : Memory) :
    ∃ t, Faithful (slotAddr pool txHead) inDesc (echoOf pool txHead inDesc t) m
      (copied m (slotAddr pool txHead) inDesc) := by
  let s : State := ⟨⟨0, 0, fun _ => inDesc⟩, ⟨0, 0, fun _ => default⟩, m, .echoing rxHead rxTail txHead, 0, []⟩
  obtain ⟨timestamps, out, hout⟩ := exists_published pool (s := s) rfl
  obtain ⟨hram, t, rfl⟩ := published_eq pool rfl hout
  have hf := h s rfl rfl timestamps _ hout
  rw [hram] at hf
  exact ⟨t, hf⟩

/-- A length above 256 points behind the slot. -/
theorem EchoesFaithfully.length_le (h : EchoesFaithfully pool rxHead rxTail txHead inDesc) :
    inDesc.length.toNat ≤ 256 := by
  by_contra hgt
  obtain ⟨t, hf⟩ := h.copied fun _ => 0
  obtain ⟨j, hj, he⟩ := hf.inSlot 256 (Nat.lt_of_not_le hgt)
  have hoffset := congrArg (fun x => (x - slotAddr pool txHead).toNat) he
  simp only [echoOf, Memory.add_sub_toNat (show 256 < 2^32 by decide), Memory.add_sub_toNat (show j < 2^32 by omega)]
    at hoffset
  omega

/-- A payload at address zero is not copied: what the slot held before is left
in it. -/
theorem EchoesFaithfully.addr_ne_zero (h : EchoesFaithfully pool rxHead rxTail txHead inDesc)
    (hlen : 0 < inDesc.length.toNat) (hne : inDesc.dramPayloadAddr ≠ slotAddr pool txHead) :
    inDesc.dramPayloadAddr ≠ 0 := by
  intro hzero
  obtain ⟨t, hf⟩ := h.copied fun x => if x = slotAddr pool txHead then 1 else 0
  have hfirst := hf.bytes 0 hlen
  simp [Ping.copied, hzero, echoOf] at hfirst
  exact hne (hzero.trans hfirst)

/-- A slot that begins inside the payload is written before it has been read. -/
theorem EchoesFaithfully.length_le_distance (h : EchoesFaithfully pool rxHead rxTail txHead inDesc)
    (hlen : 0 < inDesc.length.toNat) (hne : inDesc.dramPayloadAddr ≠ slotAddr pool txHead) :
    inDesc.length.toNat ≤ (slotAddr pool txHead - inDesc.dramPayloadAddr).toNat := by
  by_contra hlt
  have h256 := h.length_le
  have hcopy : inDesc.dramPayloadAddr ≠ 0 ∧ inDesc.length > 0 := ⟨h.addr_ne_zero hlen hne, hlen⟩
  obtain ⟨t, hf⟩ := h.copied fun x => if x = inDesc.dramPayloadAddr then 1 else 0
  have hover := hf.bytes (slotAddr pool txHead - inDesc.dramPayloadAddr).toNat (by omega)
  have hsmear := Memory.copyUp_smears (fun x => if x = inDesc.dramPayloadAddr then 1 else 0) (slotAddr pool txHead)
    inDesc.dramPayloadAddr (n := min inDesc.length.toNat 256) (Ne.symm hne) (by omega) (by omega)
  rw [Ping.copied, if_pos hcopy] at hover
  simp only [echoOf, BitVec.ofNat_toNat, BitVec.setWidth_eq, hsmear] at hover
  rw [BitVec.add_comm, BitVec.sub_add_cancel, if_pos trivial, if_neg (Ne.symm hne)] at hover
  exact absurd hover (by decide)

/-- What is copyable is copied. -/
theorem Copyable.faithful (h : Copyable (slotAddr pool txHead) inDesc) (m : Memory) (t : Word) :
    Faithful (slotAddr pool txHead) inDesc (echoOf pool txHead inDesc t) m (copied m (slotAddr pool txHead) inDesc) := by
  rcases h with hzero | ⟨h256, hplace⟩
  · exact ⟨by simp [echoOf, hzero], by simp [hzero]⟩
  · refine ⟨fun k hk => ⟨k, hk.trans_le h256, rfl⟩, fun k hk => ?_⟩
    have hmin : min inDesc.length.toNat 256 = inDesc.length.toNat := Nat.min_eq_left h256
    have hpos : inDesc.length > 0 := Nat.zero_lt_of_lt hk
    by_cases haddr : inDesc.dramPayloadAddr = 0
    · -- Only a slot at address zero itself is left.
      have hslot : inDesc.dramPayloadAddr = slotAddr pool txHead := hplace.resolve_right fun h => h.1 haddr
      rw [copied, if_neg (fun h => h.1 haddr), hslot]
      rfl
    · rw [copied, if_pos ⟨haddr, hpos⟩, hmin]
      exact Memory.copyUp_faithful m _ _ (hplace.imp Eq.symm And.right) hk (by omega)

/-- An echo is faithful for every memory exactly when its payload is copyable. -/
theorem echo_faithful_iff (pool rxHead rxTail txHead : Word) (inDesc : IpcDescriptor) :
    (∀ s : State, s.responder = .echoing rxHead rxTail txHead →
        ∃ timestamps out, (responds pool s timestamps).trace = s.trace ++ [Event.echoed out]) ∧
      (EchoesFaithfully pool rxHead rxTail txHead inDesc ↔ Copyable (slotAddr pool txHead) inDesc) := by
  refine ⟨fun s hs => exists_published pool hs, ?_, ?_⟩
  · intro h
    by_cases hzero : inDesc.length = 0
    · exact .inl hzero
    · have hlen : 0 < inDesc.length.toNat := Nat.pos_of_ne_zero fun he => hzero (BitVec.eq_of_toNat_eq he)
      refine .inr ⟨h.length_le, ?_⟩
      by_cases hslot : inDesc.dramPayloadAddr = slotAddr pool txHead
      · exact .inl hslot
      · exact .inr ⟨h.addr_ne_zero hlen hslot, h.length_le_distance hlen hslot⟩
  · intro h s hs hd timestamps out hout
    obtain ⟨hram, t, rfl⟩ := published_eq pool hs hout
    rw [hd] at hram
    rw [hd, hram]
    exact h.faithful s.ram t

/-- A ping of 300 bytes gets an echo whose payload ends behind its slot. -/
theorem long_ping_overruns_slot : ¬ EchoesFaithfully 0x48100000 1 0 0 ⟨0x48200000, 300, 1, 0, 0⟩ := by
  intro h
  exact absurd h.length_le (by decide)

end Payload
end IoProcessor.Ipc.Ping
