import IoProcessor.Host.Records

/-! The host's records against the firmware's: the clock configuration that is
written and the one that is read, the status that is published and the one that
is unpacked, and the wire format of a descriptor. -/
namespace IoProcessor.Host
open Library Struct Hal MemoryMap Clocking Memory

theorem fits_I (v : Int) : Fits .I v ↔ 0 ≤ v ∧ v < 2^32 := Iff.rfl

/-- The ranges of the fields of a configuration. -/
structure ClockConfiguration.InRange (c : ClockConfiguration) : Prop where
  nonzero : ∀ v ∈ [c.generation, c.riscvCoreHz, c.timerCounterHz], 1 ≤ v ∧ v < 2^32
  others : ∀ v ∈ [c.uartParentHz, c.spi0ParentHz, c.spi1ParentHz, c.flags], 0 ≤ v ∧ v < 2^32

theorem ClockConfiguration.inRange_iff (c : ClockConfiguration) : c.InRange ↔
    ¬ (c.generation ≤ 0 ∨ c.riscvCoreHz ≤ 0 ∨ c.timerCounterHz ≤ 0) ∧ (∀ v ∈ c.values false, Fits .I v) ∧
      Fits .I c.generation := by
  have hfixed : Fits .I clockMagic ∧ Fits .I (Host.abiVersion : Int) ∧ Fits .I (abiSize : Int) ∧ Fits .I 0 := by decide
  obtain ⟨hm, ha, hs, hz⟩ := hfixed
  constructor
  · rintro ⟨hn, ho⟩
    simp only [List.forall_mem_cons] at hn ho
    refine ⟨by omega, ?_, by rw [fits_I]; omega⟩
    have hcore : Fits .I c.riscvCoreHz := by rw [fits_I]; omega
    have hcounter : Fits .I c.timerCounterHz := by rw [fits_I]; omega
    simp only [values, List.forall_mem_cons]
    exact ⟨hm, ha, hs, hz, hcore, hcounter, ho.1, ho.2.1, ho.2.2.1, ho.2.2.2.1, hz, hz, hz, hz, hz, hz, by simp⟩
  · rintro ⟨hpos, hall, hg⟩
    simp only [values, List.forall_mem_cons, fits_I] at hall hg
    constructor
    · simp only [List.forall_mem_cons]
      refine ⟨by omega, by omega, by omega, by simp⟩
    · simp only [List.forall_mem_cons]
      refine ⟨by omega, by omega, by omega, by omega, by simp⟩

/-- Packing a configuration whose rates are positive. -/
theorem ClockConfiguration.pack_eq {c : ClockConfiguration}
    (h : ¬ (c.generation ≤ 0 ∨ c.riscvCoreHz ≤ 0 ∨ c.timerCounterHz ≤ 0)) (commit : Bool) :
    c.pack commit = Struct.pack ((c.values commit).map (.I, ·)) := by
  rw [pack, if_neg h]
  rfl

theorem readSharedConfiguration_store (m : Memory) {vs : List Int} (h : vs.length = 16) :
    readSharedConfiguration (m.store ipcClockConfigAddr ((vs.map (BitVec.ofInt 32)).flatMap (littleEndian 4))) =
      fun i : Fin 16 => BitVec.ofInt 32 (vs.getD i 0) := by
  funext i
  have hi : i.val < (vs.map (BitVec.ofInt 32)).length := by
    rw [List.length_map, h]
    exact i.isLt
  refine (load32_store_words m ipcClockConfigAddr ?_ hi).trans ?_
  · rw [List.length_map, h]
    omega
  · rw [List.length_map] at hi
    simp [hi]

/-- The commit is the store of one word. -/
theorem readSharedConfiguration_commit (m : Memory) (generation : Word) :
    readSharedConfiguration (Write.apply m ⟨generationOffset, littleEndian 4 generation⟩) =
      Function.update (readSharedConfiguration m) 3 generation := by
  have hstore : Write.apply m ⟨generationOffset, littleEndian 4 generation⟩ =
      m.store32 (ipcClockConfigAddr + 4 * BitVec.ofNat 32 3) generation := rfl
  have hend : ipcClockConfigAddr.toNat + 4 * 16 ≤ 2^32 := by decide
  rw [hstore]
  exact m.load32_words_store32 hend 3 generation

/-- The record has the values given. -/
structure Matches (c : Clocking.ClockConfiguration) (config : ClockConfiguration) : Prop where
  generation : (c.generation.toNat : Int) = config.generation
  riscvCoreHz : (c.riscvCoreHz.toNat : Int) = config.riscvCoreHz
  timerCounterHz : (c.timerCounterHz.toNat : Int) = config.timerCounterHz
  uartParentHz : (c.uartParentHz.toNat : Int) = config.uartParentHz
  spi0ParentHz : (c.spi0ParentHz.toNat : Int) = config.spi0ParentHz
  spi1ParentHz : (c.spi1ParentHz.toNat : Int) = config.spi1ParentHz
  flags : (c.flags.toNat : Int) = config.flags

theorem toNat_ofInt {v : Int} (h : 0 ≤ v ∧ v < 2^32) : ((BitVec.ofInt 32 v).toNat : Int) = v := by
  rw [BitVec.toNat_ofInt, Int.toNat_of_nonneg (Int.emod_nonneg _ (by omega))]
  exact Int.emod_eq_of_lt h.1 h.2

theorem ofInt_ne_zero {v : Int} (h : 1 ≤ v ∧ v < 2^32) : BitVec.ofInt 32 v ≠ 0 := by
  intro hz
  have := toNat_ofInt (v := v) ⟨by omega, h.2⟩
  rw [hz] at this
  simp at this
  omega

/-- The two writes for a configuration in range. -/
theorem write_in_range {config : ClockConfiguration} (h : config.InRange) :
    writeClockConfiguration config false =
      (.ok (), [⟨0, ((config.values false).map (BitVec.ofInt 32)).flatMap (littleEndian 4)⟩,
        ⟨generationOffset, littleEndian 4 (BitVec.ofInt 32 config.generation)⟩]) := by
  obtain ⟨hpos, hall, hg⟩ := config.inRange_iff.mp h
  have hstaged : config.pack false = .ok (((config.values false).map (BitVec.ofInt 32)).flatMap (littleEndian 4)) := by
    rw [ClockConfiguration.pack_eq hpos]
    exact ((pack_words (config.values false)).resolve_right fun hn => hn.1 hall).2
  have hcommit : Struct.pack [(.I, config.generation)] = .ok (littleEndian 4 (BitVec.ofInt 32 config.generation)) := by
    have hone := ((pack_words [config.generation]).resolve_right fun hn => hn.1 (by simpa using hg)).2
    simpa using hone
  rw [writeClockConfiguration, hstaged, hcommit]
  rfl

/-- Out of range, it raises before it writes. -/
theorem write_out_of_range {config : ClockConfiguration} (h : ¬ config.InRange) :
    ∃ e, writeClockConfiguration config false = (.error e, []) := by
  rw [config.inRange_iff] at h
  unfold writeClockConfiguration
  by_cases hpos : config.generation ≤ 0 ∨ config.riscvCoreHz ≤ 0 ∨ config.timerCounterHz ≤ 0
  · have hraise : config.pack false = .error .valueError := if_pos hpos
    exact ⟨.valueError, by rw [hraise]⟩
  · rw [ClockConfiguration.pack_eq hpos]
    rcases pack_words (config.values false) with ⟨hall, hp⟩ | ⟨-, hp⟩
    · have hg : ¬ Fits .I config.generation := fun hg => h ⟨hpos, hall, hg⟩
      have hraise : Struct.pack [(.I, config.generation)] = .error .structError := by simp [Struct.pack, packField, hg]
      exact ⟨.structError, by rw [hp, hraise]⟩
    · exact ⟨.structError, by rw [hp]⟩

/-- The host's writer and the firmware's reader agree, whatever the block held
before: the writer raises exactly for fields out of range and before it writes,
and else the firmware accepts what it is given, and nothing before the commit. -/
theorem clock_writer_agrees (config : ClockConfiguration) (m : Memory) :
    let r := writeClockConfiguration config false
    ((∃ e, r = (.error e, [])) ↔ ¬ config.InRange) ∧
    (config.InRange → ∃ staged commit, r = (.ok (), [staged, commit]) ∧
      (readSharedConfiguration (staged.apply m)).isValid = false ∧
      (readSharedConfiguration (commit.apply (staged.apply m))).isValid = true ∧
      Matches (readSharedConfiguration (commit.apply (staged.apply m))) config) := by
  intro r
  constructor
  · refine ⟨?_, write_out_of_range⟩
    rintro ⟨e, he⟩ h
    have := he.symm.trans (write_in_range h)
    simp at this
  · intro h
    refine ⟨_, _, write_in_range h, ?_⟩
    have hstaged : readSharedConfiguration (Write.apply m
        ⟨0, ((config.values false).map (BitVec.ofInt 32)).flatMap (littleEndian 4)⟩) =
        fun i : Fin 16 => BitVec.ofInt 32 ((config.values false).getD i 0) := by
      have haddr : ipcClockConfigAddr + BitVec.ofNat 32 0 = ipcClockConfigAddr := by decide
      rw [Write.apply, haddr]
      exact readSharedConfiguration_store m rfl
    obtain ⟨hn, ho⟩ := h
    simp only [List.forall_mem_cons] at hn ho
    refine ⟨?_, ?_, ?_⟩
    · rw [hstaged, Bool.eq_false_iff, ne_eq, ClockConfiguration.isValid_iff]
      rintro ⟨-, -, -, hg, -⟩
      exact hg rfl
    · rw [readSharedConfiguration_commit, hstaged, ClockConfiguration.isValid_iff]
      exact ⟨rfl, rfl, rfl, ofInt_ne_zero hn.1, ofInt_ne_zero hn.2.1, ofInt_ne_zero hn.2.2.1⟩
    · rw [readSharedConfiguration_commit, hstaged]
      exact ⟨toNat_ofInt (v := config.generation) (by omega), toNat_ofInt (v := config.riscvCoreHz) (by omega),
        toNat_ofInt (v := config.timerCounterHz) (by omega), toNat_ofInt ho.1, toNat_ofInt ho.2.1,
        toNat_ofInt ho.2.2.1, toNat_ofInt ho.2.2.2.1⟩

/-- The eleven fields of a record of the firmware. -/
def BootStatus.ofStatus (s : Boot.Status) : BootStatus :=
  ⟨(s 0).toNat, (s 1).toNat, (s 2).toNat, (s 3).toNat, (s 4).toNat, (s 5).toNat, (s 6).toNat, (s 7).toNat,
    (s 8).toNat, (s 9).toNat, (s 10).toNat⟩

/-- The host unpacks what the status window holds. -/
theorem BootStatus.unpack_read (m : Memory) :
    BootStatus.unpack (m.read ⟨ipcBootStatusAddr, 64⟩) = .ok (BootStatus.ofStatus (Boot.snapshot m)) := by
  have hlen : (m.read ⟨ipcBootStatusAddr, 64⟩).length = abiSize := by simp [Memory.read, abiSize]
  have hfields := Struct.unpack_read m ipcBootStatusAddr (n := 16) (by omega)
  rw [unpack, if_neg (not_not.mpr hlen), show (64 : Word) = BitVec.ofNat 32 (4 * 16) from rfl, statusFormat, hfields]
  rfl

/-- The two validity tests, over the dictionary of states and over its bound. -/
theorem BootStatus.isValid_ofStatus (s : Boot.Status) : (BootStatus.ofStatus s).isValid = s.isValid := by
  have hword (w : Word) (n : Nat) (hn : n < 2^32) : (w.toNat == n) = (w == BitVec.ofNat 32 n) := by
    rw [Bool.eq_iff_iff, beq_iff_eq, beq_iff_eq, ← BitVec.toNat_inj, BitVec.toNat_ofNat, Nat.mod_eq_of_lt hn]
  have hstate (w : Word) : stateNames.any (·.1 == w.toNat) = decide (w ≤ Boot.BootState.crashed.toWord) := by
    rw [Bool.eq_iff_iff, decide_eq_true_iff, BitVec.le_def, show Boot.BootState.crashed.toWord.toNat = 4 from rfl]
    simp [stateNames]
    omega
  have hgen (w : Word) : (w.toNat != 0) = (w != 0) := congrArg (!·) (hword w 0 (by omega))
  unfold BootStatus.isValid Boot.Status.isValid
  simp only [BootStatus.ofStatus, hgen, hstate]
  rw [hword _ bootMagic (by decide), hword _ Host.abiVersion (by decide), hword _ abiSize (by decide)]
  rfl

/-- The descriptor that the firmware's layout finds in the bytes. -/
def decodeDescriptor (bytes : List Byte) : Ipc.IpcDescriptor :=
  let field (f : Ipc.Layout.Field) : Nat := value ((bytes.drop f.offset).take f.size)
  ⟨BitVec.ofNat 32 (field .dramPayloadAddr), BitVec.ofNat 32 (field .length), BitVec.ofNat 16 (field .msgType),
    BitVec.ofNat 16 (field .flags), BitVec.ofNat 32 (field .timestampUs)⟩

/-- The widths of the fields on the wire. -/
structure IpcDescriptor.FitsWire (d : IpcDescriptor) : Prop where
  dramPayloadAddr : Fits .I d.dramPayloadAddr
  length : Fits .I d.length
  messageType : Fits .H d.messageType
  flags : Fits .H d.flags
  timestampUs : Fits .I d.timestampUs

structure IpcDescriptor.Same (d : IpcDescriptor) (e : Ipc.IpcDescriptor) : Prop where
  dramPayloadAddr : (e.dramPayloadAddr.toNat : Int) = d.dramPayloadAddr
  length : (e.length.toNat : Int) = d.length
  messageType : (e.msgType.toNat : Int) = d.messageType
  flags : (e.flags.toNat : Int) = d.flags
  timestampUs : (e.timestampUs.toNat : Int) = d.timestampUs

/-- The limits are those of the format. -/
theorem IpcDescriptor.fitsWire_iff (d : IpcDescriptor) :
    d.FitsWire ↔ ((d.values.zip limits).any fun (value, limit) => value < 0 || limit < value) = false := by
  have hfits : d.FitsWire ↔ Fits .I d.dramPayloadAddr ∧ Fits .I d.length ∧ Fits .H d.messageType ∧ Fits .H d.flags ∧
      Fits .I d.timestampUs :=
    ⟨fun ⟨h1, h2, h3, h4, h5⟩ => ⟨h1, h2, h3, h4, h5⟩, fun ⟨h1, h2, h3, h4, h5⟩ => ⟨h1, h2, h3, h4, h5⟩⟩
  rw [hfits]
  simp [values, limits, Fits, Code.size]
  omega

private theorem toNat_field {c : Code} {v : Int} (h : Fits c v) :
    ((BitVec.ofNat (8 * c.size) (value (littleEndian c.size (BitVec.ofInt (8 * c.size) v)))).toNat : Int) = v := by
  have hv := value_packed h
  have hlt : value (littleEndian c.size (BitVec.ofInt (8 * c.size) v)) < 2^(8 * c.size) := by
    rw [value_littleEndian, Nat.pow_mul]
    exact Nat.mod_lt _ (Nat.pow_pos (by omega))
  rw [BitVec.toNat_ofNat, Nat.mod_eq_of_lt hlt, hv]

private theorem decode_fields {a l k f s : List Byte} (ha : a.length = 4) (hl : l.length = 4) (hk : k.length = 2)
    (hf : f.length = 2) (hs : s.length = 4) :
    decodeDescriptor (a ++ (l ++ (k ++ (f ++ s)))) = ⟨BitVec.ofNat 32 (value a), BitVec.ofNat 32 (value l),
      BitVec.ofNat 16 (value k), BitVec.ofNat 16 (value f), BitVec.ofNat 32 (value s)⟩ := by
  simp [decodeDescriptor, Ipc.Layout.Field.offset, Ipc.Layout.Field.size, List.drop_append, ha, hl, hk, hf, hs,
    List.drop_of_length_le, List.take_of_length_le]

theorem IpcDescriptor.pack_fits {d : IpcDescriptor} (h : d.FitsWire) :
    ∃ bytes, d.pack = .ok bytes ∧ bytes.length = 16 ∧ d.Same (decodeDescriptor bytes) := by
  have hpack : d.pack = Struct.pack (ipcDescriptorFormat.zip d.values) := by
    rw [pack, d.fitsWire_iff.mp h]
    rfl
  have hall : ∀ f ∈ ipcDescriptorFormat.zip d.values, Fits f.1 f.2 := by
    simpa [ipcDescriptorFormat, values] using ⟨h.dramPayloadAddr, h.length, h.messageType, h.flags, h.timestampUs⟩
  have hok := hpack.trans ((Struct.pack_spec _).resolve_right fun hn => hn.1 hall).2
  simp only [ipcDescriptorFormat, values, List.zip_cons_cons, List.zip_nil_left, List.flatMap_cons, List.flatMap_nil,
    List.append_nil] at hok
  refine ⟨_, hok, by simp [Code.size], ?_⟩
  rw [decode_fields (by rw [littleEndian_length]; rfl) (by rw [littleEndian_length]; rfl)
    (by rw [littleEndian_length]; rfl) (by rw [littleEndian_length]; rfl) (by rw [littleEndian_length]; rfl)]
  exact ⟨toNat_field h.dramPayloadAddr, toNat_field h.length, toNat_field h.messageType, toNat_field h.flags,
    toNat_field h.timestampUs⟩

/-- The formats of the firmware and of the host agree: on which status records
are valid, on what a published record says, and on the wire format of every
descriptor whose fields fit. -/
theorem formats_agree :
    (∀ (m : Memory) (payload : Fin 64 → Byte), ∃ s, BootStatus.unpack (List.ofFn payload) = .ok s ∧
      s.isValid = (Boot.snapshot (m.store ipcBootStatusAddr (List.ofFn payload))).isValid) ∧
    (∀ (m : Memory) (status : Boot.Status),
      BootStatus.unpack ((Boot.publish m status).read ⟨ipcBootStatusAddr, 64⟩) = .ok (BootStatus.ofStatus status)) ∧
    ∀ d : IpcDescriptor, (d.pack = .error .valueError ↔ ¬ d.FitsWire) ∧
      (d.FitsWire → ∃ bytes, d.pack = .ok bytes ∧ bytes.length = 16 ∧ d.Same (decodeDescriptor bytes)) := by
  refine ⟨fun m payload => ?_, fun m status => ?_, fun d => ⟨?_, IpcDescriptor.pack_fits⟩⟩
  · have hread := BootStatus.unpack_read (m.store ipcBootStatusAddr (List.ofFn payload))
    rw [read_store m ⟨ipcBootStatusAddr, 64⟩ (by simp)] at hread
    exact ⟨_, hread, BootStatus.isValid_ofStatus _⟩
  · rw [BootStatus.unpack_read, Boot.snapshot_publish]
  · constructor
    · intro hraise h
      obtain ⟨bytes, hok, -⟩ := IpcDescriptor.pack_fits h
      rw [hraise] at hok
      cases hok
    · intro h
      rw [IpcDescriptor.fitsWire_iff, Bool.not_eq_false] at h
      exact if_pos h

end IoProcessor.Host
