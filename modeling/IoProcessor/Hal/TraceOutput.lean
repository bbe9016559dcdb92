import Mathlib.Data.List.DropRight
import Mathlib.Data.List.TakeWhile
import IoProcessor.Library.History
import IoProcessor.Library.Numeral
import IoProcessor.Library.WrappedText
import IoProcessor.Hal.Trace

/-! What trace0 shows: the newest characters of the output since the last init,
up to where the writer wrapped, and no store of any call outside the buffer. -/
namespace IoProcessor.Hal.Trace
open Library MemoryMap

def bytes (cs : List Char) : List Byte := cs.map fun c => BitVec.ofNat 8 c.toNat

/-- What a call is to write: eight hexadecimal digits or the decimal numeral
behind the label, and a newline. -/
def Call.output : Call → List Byte
  | .init => chars "[riscv] trace init\n"
  | .puts text => label text
  | .putHex32 text value =>
    label text ++ chars "0x" ++ bytes ((Nat.toDigits 16 value.toNat).leftpad 8 '0') ++ chars "\n"
  | .putDec text value => label text ++ chars (toString value.toNat) ++ chars "\n"

/-- The output since the last init. -/
def written (out : List Byte) : Call → List Byte
  | .init => Call.init.output
  | call => out ++ call.output

/-- The assignments to the buffer and to the offset, one by one. -/
inductive Step where
  | zero (i : Nat)
  | rewind
  | char (c : Byte)
  | terminate
  deriving DecidableEq, Repr

def Step.apply (b : Buffer) : Step → Buffer
  | .zero i => zeroByte b i
  | .rewind => { b with offset := 0, wrapped := false }
  | .char c => putCharUnlocked b c
  | .terminate => terminateUnlocked b

/-- The index of the buffer that a step stores to, and the byte. -/
def Step.store (b : Buffer) : Step → Option (Nat × Byte)
  | .zero i => some (i, 0)
  | .rewind => none
  | .char c => some (if b.offset ≥ bufferSize - 1 then 0 else b.offset, c)
  | .terminate => some (b.offset, 0)

def printSteps (cs : List Byte) : List Step := cs.map .char ++ [.terminate]

def putHex32Chars (text : Option (List Byte)) (value : Word) : List Byte :=
  let digit (shift : Nat) : Byte := hexDigits.getD ((value >>> shift) &&& 0xF).toNat 0
  label text ++ chars "0x" ++ [28, 24, 20, 16, 12, 8, 4, 0].map digit ++ chars "\n"

def putDecChars (text : Option (List Byte)) (value : Word) : List Byte :=
  label text ++ (scratch 11 value.toNat).reverse ++ chars "\n"

def Call.steps : Call → List Step
  | .init =>
    (List.range bufferSize).map .zero ++ .rewind :: printSteps (cString (chars "[riscv] trace init\n"))
  | .puts none => []
  | .puts (some text) => printSteps (cString text)
  | .putHex32 text value => printSteps (putHex32Chars text value)
  | .putDec text value => printSteps (putDecChars text value)

/-- The stores of a run of steps, the oldest first. -/
def stores (b : Buffer) : List Step → List (Nat × Byte)
  | [] => []
  | step :: steps => (step.store b).toList ++ stores (step.apply b) steps

/-- The string that Linux reads from the base of the buffer. -/
def trace0 (b : Buffer) : List Byte := cString (b.ram.read ⟨ipcTraceBufferAddr, ipcTraceBufferSize⟩)

theorem run_char (b : Buffer) (cs : List Byte) :
    History.run Step.apply b (cs.map .char) = cs.foldl putCharUnlocked b := by
  rw [History.run, List.foldl_map]
  rfl

theorem run_printSteps (b : Buffer) (cs : List Byte) : History.run Step.apply b (printSteps cs) = print b cs := by
  rw [printSteps, History.run_append, run_char]
  rfl

/-- A call does its steps and nothing else. -/
theorem Call.apply_eq_run (b : Buffer) (call : Call) : call.apply b = History.run Step.apply b call.steps := by
  cases call with
  | init =>
    rw [Call.steps, History.run_append, History.run_cons, run_printSteps, History.run, List.foldl_map]
    rfl
  | puts text =>
    cases text with
    | none => rfl
    | some text => exact (run_printSteps b _).symm
  | putHex32 text value => exact (run_printSteps b _).symm
  | putDec text value => exact (run_printSteps b _).symm

theorem run_flatMap_steps (b : Buffer) (calls : List Call) :
    History.run Step.apply b (calls.flatMap Call.steps) = History.run Call.apply b calls := by
  induction calls generalizing b with
  | nil => rfl
  | cons call calls ih => rw [List.flatMap_cons, History.run_append, ih, History.run_cons, Call.apply_eq_run]

def storeAt (m : Memory) (s : Nat × Byte) : Memory := m.store8 (bufferByte s.1) s.2

theorem Step.apply_ram (b : Buffer) (step : Step) :
    (step.apply b).ram = (step.store b).toList.foldl storeAt b.ram := by
  cases step with
  | zero i => rfl
  | rewind => rfl
  | char c =>
    by_cases hwrap : b.offset ≥ bufferSize - 1 <;> simp [Step.apply, Step.store, putCharUnlocked, storeAt, hwrap]
  | terminate => rfl

/-- The memory changes by these stores only. -/
theorem run_ram (b : Buffer) (steps : List Step) :
    (History.run Step.apply b steps).ram = (stores b steps).foldl storeAt b.ram := by
  induction steps generalizing b with
  | nil => rfl
  | cons step steps ih => rw [History.run_cons, ih, stores, List.foldl_append, Step.apply_ram]

theorem stores_append (b : Buffer) (before after : List Step) :
    stores b (before ++ after) = stores b before ++ stores (History.run Step.apply b before) after := by
  induction before generalizing b with
  | nil => rfl
  | cons step before ih => rw [List.cons_append, stores, ih, stores, List.append_assoc, History.run_cons]

theorem stores_zero (b : Buffer) (is : List Nat) : stores b (is.map .zero) = is.map (·, 0) := by
  induction is generalizing b with
  | nil => rfl
  | cons i is ih => simp [stores, Step.store, ih]

theorem stores_rewind (b : Buffer) (steps : List Step) :
    stores b (.rewind :: steps) = stores { b with offset := 0, wrapped := false } steps := rfl

theorem Step.apply_offset_le {b : Buffer} (h : b.offset ≤ bufferSize - 1) (step : Step) :
    (step.apply b).offset ≤ bufferSize - 1 := by
  have hs : bufferSize = 0x8000 := rfl
  cases step with
  | zero i => exact h
  | rewind => exact Nat.zero_le _
  | char c =>
    by_cases hwrap : b.offset ≥ bufferSize - 1
    · simp only [Step.apply, putCharUnlocked, if_pos hwrap]
      omega
    · simp only [Step.apply, putCharUnlocked, if_neg hwrap]
      omega
  | terminate => exact h

/-- Steps that start with the offset in place and wipe bytes of the buffer only
store in the buffer. -/
theorem stores_lt {b : Buffer} (h : b.offset ≤ bufferSize - 1) {steps : List Step}
    (hz : ∀ i, .zero i ∈ steps → i < bufferSize) : ∀ s ∈ stores b steps, s.1 < bufferSize := by
  have hs : bufferSize = 0x8000 := rfl
  induction steps generalizing b with
  | nil => simp [stores]
  | cons step steps ih =>
    intro s hm
    rw [stores, List.mem_append] at hm
    rcases hm with hm | hm
    · cases step with
      | zero i =>
        simp only [Step.store, Option.toList_some, List.mem_singleton] at hm
        rw [hm]
        exact hz i List.mem_cons_self
      | rewind => simp [Step.store] at hm
      | char c =>
        simp only [Step.store, Option.toList_some, List.mem_singleton] at hm
        rw [hm]
        split <;> omega
      | terminate =>
        simp only [Step.store, Option.toList_some, List.mem_singleton] at hm
        rw [hm]
        omega
    · exact ih (Step.apply_offset_le h step) (fun i hi => hz i (List.mem_cons_of_mem _ hi)) s hm

theorem zero_mem_printSteps (i : Nat) (cs : List Byte) : .zero i ∉ printSteps cs := by
  simp [printSteps]

theorem Call.zero_mem_steps {call : Call} {i : Nat} (h : .zero i ∈ call.steps) : i < bufferSize := by
  cases call with
  | init =>
    simp only [Call.steps, List.mem_append, List.mem_map, List.mem_range, Step.zero.injEq, exists_eq_right,
      List.mem_cons, reduceCtorEq, false_or] at h
    exact h.resolve_right (zero_mem_printSteps i _)
  | puts text =>
    cases text with
    | none => simp [Call.steps] at h
    | some text => exact absurd h (zero_mem_printSteps i _)
  | putHex32 text value => exact absurd h (zero_mem_printSteps i _)
  | putDec text value => exact absurd h (zero_mem_printSteps i _)

/-- Whatever the offset was before init. -/
theorem stores_init_lt (b : Buffer) (calls : List Call) :
    ∀ s ∈ stores b ((.init :: calls).flatMap Call.steps), s.1 < bufferSize := by
  intro s hs
  rw [List.flatMap_cons, Call.steps, List.append_assoc, stores_append, List.mem_append, stores_zero,
    List.cons_append, stores_rewind] at hs
  rcases hs with hs | hs
  · obtain ⟨i, hi, rfl⟩ := List.mem_map.mp hs
    exact List.mem_range.mp hi
  · refine stores_lt (Nat.zero_le _) ?_ s hs
    intro i hi
    rcases List.mem_append.mp hi with hi | hi
    · exact absurd hi (zero_mem_printSteps i _)
    · obtain ⟨call, -, hc⟩ := List.mem_flatMap.mp hi
      exact Call.zero_mem_steps hc

theorem bufferByte_toNat_of_lt {i : Nat} (h : i < bufferSize) : (bufferByte i).toNat = 0x07136000 + i := by
  have hs : bufferSize = 0x8000 := rfl
  have hbase : ipcTraceBufferAddr.toNat = 0x07136000 := rfl
  rw [bufferByte, Memory.toNat_add_small (by omega), hbase]

/-- Words below the buffer are not stored to. -/
theorem load32_stores_below {m : Memory} {made : List (Nat × Byte)} (h : ∀ s ∈ made, s.1 < bufferSize) {a : Word}
    (ha : a.toNat + 4 ≤ 0x07136000) : (made.foldl storeAt m).load32 a = m.load32 a := by
  induction made generalizing m with
  | nil => rfl
  | cons s made ih =>
    rw [List.foldl_cons, ih fun s' hs => h s' (List.mem_cons_of_mem _ hs)]
    refine Memory.load32_congr fun k hk => Memory.store8_ne _ _ fun heq => ?_
    have hplace := bufferByte_toNat_of_lt (h s List.mem_cons_self)
    rw [← heq, Memory.toNat_add_small (by omega)] at hplace
    omega

theorem hexDigits_getD {n : Nat} (h : n < 16) : hexDigits.getD n 0 = BitVec.ofNat 8 (Nat.digitChar n).toNat := by
  revert n
  decide

theorem nibble (value : Word) (shift : Nat) :
    ((value >>> shift) &&& 0xF).toNat = value.toNat / 2^shift % 16 := by
  rw [BitVec.toNat_and, BitVec.toNat_ushiftRight, Nat.shiftRight_eq_div_pow]
  exact Nat.and_two_pow_sub_one_eq_mod _ 4

/-- The digits from bit 28 down are the padded numeral. -/
theorem putHex32Chars_eq (text : Option (List Byte)) (value : Word) :
    putHex32Chars text value = (Call.putHex32 text value).output := by
  have hv : value.toNat < 16^8 := value.isLt
  have hd (shift : Nat) : hexDigits.getD ((value >>> shift) &&& 0xF).toNat 0 =
      BitVec.ofNat 8 (Nat.digitChar (value.toNat / 2^shift % 16)).toNat := by
    rw [nibble, hexDigits_getD (Nat.mod_lt _ (by decide))]
  rw [putHex32Chars, Call.output, ← Numeral.fixed_eq_leftpad (by decide) (by decide) hv]
  simp only [hd]
  simp [Numeral.fixed, Nat.div_div_eq_div_mul, bytes]

example : putHex32Chars none 0xBEEF = chars "0x0000beef\n" := by decide

theorem scratch_eq (room value : Nat) : scratch room value = bytes (Numeral.lowestFirst 10 room value) := by
  induction room generalizing value with
  | zero => rfl
  | succ room ih =>
    rw [scratch, Numeral.lowestFirst, ih, ← Nat.toNat_digitChar_of_lt_ten (Nat.mod_lt value (by decide))]
    split <;> rfl

/-- Eleven bytes hold every digit, and the lowest one comes last. -/
theorem putDecChars_eq (text : Option (List Byte)) (value : Word) :
    putDecChars text value = (Call.putDec text value).output := by
  have hv : value.toNat < 10^11 := Nat.lt_trans value.isLt (by decide)
  have hd : (scratch 11 value.toNat).reverse = chars (toString value.toNat) := by
    rw [scratch_eq, bytes, ← List.map_reverse, Numeral.lowestFirst_reverse (by decide) (by decide) hv, chars,
      Nat.toString_eq_repr, Nat.toList_repr]
  rw [putDecChars, Call.output, hd]

theorem putHex32_eq_print (b : Buffer) (text : Option (List Byte)) (value : Word) :
    Trace.putHex32 b text value = print b (Call.putHex32 text value).output :=
  congrArg (print b) (putHex32Chars_eq text value)

theorem putDec_eq_print (b : Buffer) (text : Option (List Byte)) (value : Word) :
    Trace.putDec b text value = print b (Call.putDec text value).output :=
  congrArg (print b) (putDecChars_eq text value)

theorem label_nonzero (text : Option (List Byte)) : ∀ c ∈ label text, c ≠ 0 := by
  intro c hc
  cases text with
  | none => simp [label] at hc
  | some text => simpa using List.mem_takeWhile_imp hc

theorem digit_nonzero (d : Nat) : BitVec.ofNat 8 (Nat.digitChar d).toNat ≠ 0 := by
  by_cases hd : d < 16
  · revert d
    decide
  · rw [Nat.digitChar_eq_star.mpr (by omega)]
    decide

theorem bytes_nonzero {base : Nat} (hb : 1 < base) (value : Nat) :
    ∀ c ∈ bytes (Nat.toDigits base value), c ≠ 0 := by
  intro c hc
  obtain ⟨d, hd, rfl⟩ := List.mem_map.mp hc
  obtain ⟨n, rfl⟩ := Numeral.digit_of_mem_toDigits hb hd
  exact digit_nonzero n

theorem banner_nonzero : ∀ c ∈ Call.init.output, c ≠ 0 := by
  simp [Call.output, chars]

theorem cString_banner : cString (chars "[riscv] trace init\n") = Call.init.output := by
  rw [cString, Call.output, List.takeWhile_eq_self_iff]
  simpa [Call.output] using banner_nonzero

/-- No call writes a terminator in mid-text. -/
theorem Call.output_nonzero (call : Call) : ∀ c ∈ call.output, c ≠ 0 := by
  have hn : ∀ c ∈ chars "\n", c ≠ 0 := by decide
  cases call with
  | init => exact banner_nonzero
  | puts text => exact label_nonzero text
  | putHex32 text value =>
    have hx : ∀ c ∈ chars "0x", c ≠ 0 := by decide
    have hpad (n : Nat) : ∀ c ∈ bytes (List.replicate n '0'), c ≠ 0 := by
      intro c hc
      rw [bytes, List.map_replicate] at hc
      rw [List.eq_of_mem_replicate hc]
      decide
    simp only [Call.output, List.leftpad, bytes, List.map_append, List.forall_mem_append]
    exact ⟨⟨⟨label_nonzero text, hx⟩, hpad _, bytes_nonzero (by decide) _⟩, hn⟩
  | putDec text value =>
    simp only [Call.output, chars, Nat.toString_eq_repr, Nat.toList_repr, List.forall_mem_append]
    exact ⟨⟨label_nonzero text, bytes_nonzero (by decide) _⟩, hn⟩

variable {b : Buffer} {out : List Byte}

/-- The bytes below the offset are the newest ones of the output. -/
def Buffer.Holds (b : Buffer) (out : List Byte) : Prop :=
  WrappedText (bufferSize - 1) (fun i => b.ram (bufferByte i)) b.offset out

/-- Between two calls the text ends at the offset, and no sooner. -/
structure Buffer.Shows (b : Buffer) (out : List Byte) : Prop where
  holds : b.Holds out
  begun : out ≠ []
  nonzero : ∀ c ∈ out, c ≠ 0
  terminated : b.ram (bufferByte b.offset) = 0

/-- A store at the offset leaves the bytes below it. -/
theorem store8_above (m : Memory) (v : Byte) {k o : Nat} (hk : k < o) (ho : o ≤ bufferSize - 1) :
    m.store8 (bufferByte o) v (bufferByte k) = m (bufferByte k) := by
  have hs : bufferSize = 0x8000 := rfl
  apply Memory.store8_ne
  intro he
  have := bufferByte_injective (by omega) (by omega) he
  omega

theorem Buffer.Holds.putChar (h : b.Holds out) (c : Byte) : (putCharUnlocked b c).Holds (out ++ [c]) := by
  have hs : bufferSize = 0x8000 := rfl
  have ho := h.fits
  unfold putCharUnlocked Buffer.Holds
  by_cases hwrap : b.offset ≥ bufferSize - 1
  · have hfull : b.offset = bufferSize - 1 := by omega
    simp only [if_pos hwrap]
    rw [Buffer.Holds, hfull] at h
    exact h.wrap (by omega) (Memory.store8_self _ _ _)
  · simp only [if_neg hwrap]
    exact WrappedText.append h (by omega) (Memory.store8_self _ _ _) fun k hk => store8_above _ _ hk ho

theorem Buffer.Holds.putChars (h : b.Holds out) (cs : List Byte) :
    (cs.foldl putCharUnlocked b).Holds (out ++ cs) := by
  induction cs generalizing b out with
  | nil => simpa using h
  | cons c cs ih =>
    have hc := ih (h.putChar c)
    rw [List.append_assoc] at hc
    exact hc

theorem Buffer.Holds.terminate (h : b.Holds out) (hb : out ≠ []) (hz : ∀ c ∈ out, c ≠ 0) :
    (terminateUnlocked b).Shows out := by
  have hkeep : (terminateUnlocked b).Holds out := WrappedText.congr h fun k hk => store8_above _ _ hk h.fits
  exact ⟨hkeep, hb, hz, Memory.store8_self _ _ _⟩

theorem Buffer.Shows.print (h : b.Shows out) {cs : List Byte} (hc : ∀ c ∈ cs, c ≠ 0) :
    (print b cs).Shows (out ++ cs) := by
  apply (h.holds.putChars cs).terminate
  · exact List.append_ne_nil_of_left_ne_nil h.begun cs
  · intro c hm
    exact (List.mem_append.mp hm).elim (h.nonzero c) (hc c)

/-- A buffer shows the banner after init, whatever it held. -/
theorem shows_init (b : Buffer) : (Trace.init b).Shows Call.init.output := by
  have hempty : Buffer.Holds { wipe b with offset := 0, wrapped := false } [] := WrappedText.empty _ _
  rw [Trace.init, puts, cString_banner]
  exact (hempty.putChars Call.init.output).terminate (by simp [Call.output, chars]) banner_nonzero

theorem Buffer.Shows.call (h : b.Shows out) (call : Call) : (call.apply b).Shows (written out call) := by
  cases call with
  | init => exact shows_init b
  | puts text =>
    cases text with
    | none =>
      rw [written, Call.output, label, Option.map_none, Option.getD_none, List.append_nil]
      · exact h
      · simp
    | some text => exact h.print (Call.puts (some text)).output_nonzero
  | putHex32 text value =>
    rw [Call.apply, putHex32_eq_print]
    exact h.print (Call.putHex32 text value).output_nonzero
  | putDec text value =>
    rw [Call.apply, putDec_eq_print]
    exact h.print (Call.putDec text value).output_nonzero

theorem Buffer.Shows.run (h : b.Shows out) (calls : List Call) :
    (History.run Call.apply b calls).Shows (calls.foldl written out) := by
  induction calls generalizing b out with
  | nil => exact h
  | cons call calls ih => exact ih (h.call call)

theorem Buffer.Shows.offset_eq (h : b.Shows out) : b.offset = (out.length - 1) % (bufferSize - 1) + 1 :=
  WrappedText.next_eq h.holds h.begun

theorem Buffer.Shows.trace0_eq (h : b.Shows out) : trace0 b = out.rtake b.offset := by
  have hread : b.ram.read ⟨ipcTraceBufferAddr, ipcTraceBufferSize⟩ =
      (List.range bufferSize).map fun i => b.ram (bufferByte i) := rfl
  have hs : bufferSize = 0x8000 := rfl
  have ho := h.holds.fits
  rw [trace0, cString, hread]
  refine WrappedText.takeWhile_eq h.holds (fun c hc => ?_) ?_ (by omega)
  · exact decide_eq_true (h.nonzero c hc)
  · simpa using h.terminated

/-- What Linux reads from trace0 is the newest output. -/
theorem trace0_shows_output (b : Buffer) (calls : List Call) :
    let after := History.run Call.apply b (.init :: calls)
    let made := stores b ((.init :: calls).flatMap Call.steps)
    let out := calls.foldl written Call.init.output
    after.ram = made.foldl storeAt b.ram ∧ (∀ s ∈ made, s.1 < bufferSize) ∧
      after.offset = (out.length - 1) % (bufferSize - 1) + 1 ∧ trace0 after = out.rtake after.offset := by
  intro after made out
  have hshows : after.Shows out := (shows_init b).run calls
  refine ⟨?_, stores_init_lt b calls, hshows.offset_eq, hshows.trace0_eq⟩
  rw [← run_ram, run_flatMap_steps]

end IoProcessor.Hal.Trace
