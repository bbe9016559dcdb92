import IoProcessor.Hal.BootStatus

/-! Where the rings are. The linker script places .spsc_descriptors first in
SRAM_SHARED, so the two rings start at the origin of the region, which is also
the address of the boot record; the addresses that memory_map.h reserves for
the rings are not used. -/
namespace IoProcessor.Ipc.Layout
open Library Hal Hal.MemoryMap

inductive Ring where
  | tx | rx
  deriving DecidableEq, Repr

/-- `sizeof(SpscRingControl)`: two indices in cache lines of their own, then
128 descriptors of 16 bytes. -/
def ringBytes : Word := 64 + 64 + 128 * 16

def Ring.base : Ring → Word
  | .tx => sramSharedBase
  | .rx => sramSharedBase + ringBytes

def Ring.headAddr (r : Ring) : Word := r.base
def Ring.tailAddr (r : Ring) : Word := r.base + 64
def Ring.descriptorAddr (r : Ring) (i : Fin 128) : Word := r.base + 128 + 16 * BitVec.ofNat 32 i

/-- The fields of IpcDescriptor. -/
inductive Field where
  | dramPayloadAddr | length | msgType | flags | timestampUs
  deriving DecidableEq, Repr

def Field.offset : Field → Nat
  | .dramPayloadAddr => 0 | .length => 4 | .msgType => 8 | .flags => 10 | .timestampUs => 12

def Field.size : Field → Nat
  | .dramPayloadAddr | .length | .timestampUs => 4
  | .msgType | .flags => 2

def fieldAddr (r : Ring) (i : Fin 128) (f : Field) : Word := r.descriptorAddr i + BitVec.ofNat 32 f.offset

/-- What the firmware and Linux store in the shared window: a status record, an
index of a ring, or a field of one of its descriptors. -/
inductive Op where
  | publish (status : Boot.Status)
  | storeHead (r : Ring) (v : Word)
  | storeTail (r : Ring) (v : Word)
  | storeField (r : Ring) (i : Fin 128) (f : Field) (v : BitVec (8 * f.size))

def Op.apply (m : Memory) : Op → Memory
  | .publish status => Boot.publish m status
  | .storeHead r v => m.store32 r.headAddr v
  | .storeTail r v => m.store32 r.tailAddr v
  | .storeField r i f v => m.store (fieldAddr r i f) (Memory.littleEndian f.size v)

/-- The bytes of a ring's indices and descriptors. -/
def InRing (r : Ring) (x : Word) : Prop :=
  let offset := x.toNat - r.base.toNat
  r.base.toNat ≤ x.toNat ∧ (offset < 4 ∨ (64 ≤ offset ∧ offset < 68) ∨ (128 ≤ offset ∧ offset < 2176))

/-- The bytes of the two handshake records. -/
def InRecords (x : Word) : Prop :=
  (ipcBootStatusAddr.toNat ≤ x.toNat ∧ x.toNat < ipcBootStatusAddr.toNat + 64) ∨
    (ipcClockConfigAddr.toNat ≤ x.toNat ∧ x.toNat < ipcClockConfigAddr.toNat + 64)

/-- A publication keeps both rings, and a ring store keeps both records. -/
def Separate (m : Memory) (op : Op) : Prop :=
  match op with
  | .publish _ => ∀ r x, InRing r x → op.apply m x = m x
  | _ => ∀ x, InRecords x → op.apply m x = m x

/-- The stores that meet the other side's bytes write what is there already:
the magic word is the index of the transmit ring, that index the magic word,
and the descriptors 112 to 115 of the receive ring are the clock record. -/
def Harmless (m : Memory) : Op → Prop
  | .publish status => status.magic = m.load32 Ring.tx.headAddr
  | .storeHead .tx v => v = m.load32 Ring.tx.headAddr
  | .storeHead .rx _ | .storeTail _ _ | .storeField .tx _ _ _ => True
  | .storeField .rx i f v => i.val < 112 ∨ 115 < i.val ∨
    m.read ⟨fieldAddr .rx i f, BitVec.ofNat 32 f.size⟩ = Memory.littleEndian f.size v

theorem Field.offset_add_size (f : Field) : f.offset + f.size ≤ 16 ∧ 0 < f.size ∧ f.size ≤ 4 := by
  cases f <;> decide

theorem Ring.base_toNat : Ring.tx.base.toNat = 0x07130000 ∧ Ring.rx.base.toNat = 0x07130880 := by decide

theorem fieldAddr_toNat (r : Ring) (i : Fin 128) (f : Field) :
    (fieldAddr r i f).toNat = r.base.toNat + 128 + 16 * i.val + f.offset := by
  have hi := i.isLt
  have hf := f.offset_add_size
  have hb : r.base.toNat ≤ 0x07130880 := by cases r <;> decide
  have h128 : (128 : Word).toNat = 128 := rfl
  have h16 : (16 : Word).toNat = 16 := rfl
  simp only [fieldAddr, Ring.descriptorAddr, BitVec.toNat_add, BitVec.toNat_mul, BitVec.toNat_ofNat, h128, h16]
  omega

/-- Only the first word of the status record meets a ring. -/
theorem publish_outside (m : Memory) (status : Boot.Status) {x : Word}
    (hx : x.toNat < 0x07130000 ∨ 0x07130040 ≤ x.toNat) : Boot.publish m status x = m x := by
  have keep (is : List (Fin 16)) (n : Memory) : is.foldl (Boot.storeWord status) n x = n x := by
    induction is generalizing n with
    | nil => rfl
    | cons i is ih =>
      have hi := Boot.statusWordAddr_toNat i
      have hlt := i.isLt
      rw [List.foldl_cons, ih]
      refine Memory.store_outside ?_ ?_ <;> rw [Memory.littleEndian_length] <;> omega
  exact keep Boot.storeOrder m

private theorem separate_publish (m : Memory) (status : Boot.Status) :
    Separate m (.publish status) ↔ Harmless m (.publish status) := by
  have hword : (Boot.publish m status).load32 Ring.tx.headAddr = status.magic :=
    congrFun (Boot.snapshot_publish status m) 0
  have hhead : Ring.tx.headAddr.toNat = 0x07130000 := rfl
  obtain ⟨htx, hrx⟩ := Ring.base_toNat
  simp only [Separate, Harmless, Op.apply]
  constructor
  · intro h
    rw [← hword]
    refine Memory.load32_congr fun k hk => h .tx _ ?_
    rw [InRing, Memory.toNat_add_small (by omega)]
    simp only [htx, hhead]
    omega
  · intro h r x hx
    by_cases hlow : x.toNat < 0x07130004
    · obtain ⟨k, hk, rfl⟩ := Memory.exists_offset Ring.tx.headAddr x
      have hk4 : k < 4 := by
        cases r <;> simp only [InRing, htx, hrx, BitVec.toNat_add, BitVec.toNat_ofNat, hhead] at hx hlow <;> omega
      exact Memory.byte_eq_of_load32_eq (hword.trans h) hk4
    · refine publish_outside m status (.inr ?_)
      cases r <;> simp only [InRing, htx, hrx] at hx <;> omega

/-- A store away from both records. -/
private theorem separate_of_outside {m : Memory} {a : Word} {bytes : List Byte}
    (h : a.toNat + bytes.length ≤ 2^32)
    (hboot : 0x07130040 ≤ a.toNat) (hclock : a.toNat + bytes.length ≤ 0x07131000 ∨ 0x07131040 ≤ a.toNat) :
    ∀ x, InRecords x → m.store a bytes x = m x := by
  intro x hx
  have h1 : ipcBootStatusAddr.toNat = 0x07130000 := rfl
  have h2 : ipcClockConfigAddr.toNat = 0x07131000 := rfl
  refine Memory.store_outside h ?_
  rw [InRecords, h1, h2] at hx
  omega

private theorem separate_head (m : Memory) (r : Ring) (v : Word) :
    Separate m (.storeHead r v) ↔ Harmless m (.storeHead r v) := by
  have hlen : (Memory.littleEndian 4 v).length = 4 := Memory.littleEndian_length _ _
  simp only [Separate, Op.apply]
  cases r with
  | tx =>
    have hhead : Ring.tx.headAddr.toNat = 0x07130000 := rfl
    have h1 : ipcBootStatusAddr.toNat = 0x07130000 := rfl
    constructor
    · intro h
      rw [Harmless, ← Memory.load32_store32 m Ring.tx.headAddr v]
      refine Memory.load32_congr fun k hk => h _ (.inl ?_)
      rw [Memory.toNat_add_small (by omega)]
      omega
    · rintro rfl x -
      rw [Memory.store32_load32]
  | rx =>
    have hhead : Ring.rx.headAddr.toNat = 0x07130880 := rfl
    refine iff_of_true (separate_of_outside ?_ ?_ ?_) trivial <;> omega

private theorem separate_field (m : Memory) (r : Ring) (i : Fin 128) (f : Field) (v : BitVec (8 * f.size)) :
    Separate m (.storeField r i f v) ↔ Harmless m (.storeField r i f v) := by
  obtain ⟨htx, hrx⟩ := Ring.base_toNat
  have haddr := fieldAddr_toNat r i f
  have hi := i.isLt
  obtain ⟨hf, hpos, -⟩ := f.offset_add_size
  have hlen : (Memory.littleEndian f.size v).length = f.size := Memory.littleEndian_length _ _
  simp only [Separate, Op.apply]
  cases r with
  | tx =>
    refine iff_of_true (separate_of_outside ?_ ?_ ?_) trivial <;> omega
  | rx =>
    by_cases hout : i.val < 112 ∨ 115 < i.val
    · refine iff_of_true (separate_of_outside ?_ ?_ ?_) (or_assoc.mp (.inl hout)) <;> omega
    · have hin (k : Nat) (hk : k < (Memory.littleEndian f.size v).length) :
          InRecords (fieldAddr .rx i f + BitVec.ofNat 32 k) := by
        refine .inr ?_
        rw [Memory.toNat_add_small (by omega), show ipcClockConfigAddr.toNat = 0x07131000 from rfl]
        omega
      rw [Memory.store_keeps_iff (by omega) hin, hlen, Harmless, ← or_assoc, or_iff_right hout]

/-- The rings and the records keep out of each other's way exactly where the
stores that meet write what is there already. -/
theorem separate_iff (m : Memory) (op : Op) : Separate m op ↔ Harmless m op := by
  cases op with
  | publish status => exact separate_publish m status
  | storeHead r v => exact separate_head m r v
  | storeTail r v =>
    have htail : r.tailAddr.toNat = 0x07130040 ∨ r.tailAddr.toNat = 0x071308C0 := by cases r <;> decide
    have hlen : (Memory.littleEndian 4 v).length = 4 := Memory.littleEndian_length _ _
    refine iff_of_true (separate_of_outside ?_ ?_ ?_) trivial <;> omega
  | storeField r i f v => exact separate_field m r i f v

/-- A first Ready record makes the index of the empty transmit ring look like
1,414,483,778 messages. -/
theorem ready_record_moves_tx_head :
    let ready := Boot.makeStatus .ready .none 1 1 600000000
    let m := (Op.publish ready).apply fun _ => 0
    m.load32 Ring.tx.headAddr = 0x544F4F42 ∧ ¬ Separate (fun _ => 0) (.publish ready) := by
  intro ready m
  have hword : m.load32 Ring.tx.headAddr = 0x544F4F42 := congrFun (Boot.snapshot_publish ready fun _ => 0) 0
  refine ⟨hword, fun h => ?_⟩
  have hzero : m.load32 Ring.tx.headAddr = Memory.load32 (fun _ => 0) Ring.tx.headAddr := by
    refine Memory.load32_congr fun k hk => h .tx _ ?_
    have hhead : Ring.tx.headAddr.toNat = 0x07130000 := rfl
    rw [InRing, Memory.toNat_add_small (by omega), Ring.base_toNat.1]
    omega
  rw [hword] at hzero
  exact absurd hzero (by decide)

end IoProcessor.Ipc.Layout
