import Mathlib.Logic.Function.Basic
import IoProcessor.Hal.MemoryMap

/-! Trace: the text logger in the buffer that remoteproc exports. The calls run
with interrupts masked, so each of them is one step. -/
namespace IoProcessor.Hal.Trace
open Library MemoryMap

def bufferSize : Nat := ipcTraceBufferSize.toNat

def bufferByte (i : Nat) : Word := ipcTraceBufferAddr + BitVec.ofNat 32 i

/-- The two static members over the memory, and which bytes hold a character
that was printed; the latter is not stored by the program. -/
structure Buffer where
  ram : Memory
  offset : Nat
  wrapped : Bool
  text : Word → Bool

def putCharUnlocked (b : Buffer) (c : Byte) : Buffer :=
  let b := if b.offset ≥ bufferSize - 1 then { b with offset := 0, wrapped := true } else b
  { b with
    ram := b.ram.store8 (bufferByte b.offset) c
    text := Function.update b.text (bufferByte b.offset) true
    offset := b.offset + 1 }

def terminateUnlocked (b : Buffer) : Buffer :=
  { b with
    ram := b.ram.store8 (bufferByte b.offset) 0
    text := Function.update b.text (bufferByte b.offset) false }

/-- The characters of a C string, up to its terminator. -/
def cString (text : List Byte) : List Byte := text.takeWhile (· ≠ 0)

def chars (s : String) : List Byte := s.toList.map fun c => BitVec.ofNat 8 c.toNat

def print (b : Buffer) (cs : List Byte) : Buffer := terminateUnlocked (cs.foldl putCharUnlocked b)

def puts (b : Buffer) : Option (List Byte) → Buffer
  | none => b
  | some text => print b (cString text)

def label (text : Option (List Byte)) : List Byte := (text.map cString).getD []

def hexDigits : List Byte := chars "0123456789abcdef"

def putHex32 (b : Buffer) (text : Option (List Byte)) (value : Word) : Buffer :=
  let digit (shift : Nat) : Byte := hexDigits.getD ((value >>> shift) &&& 0xF).toNat 0
  print b (label text ++ chars "0x" ++ [28, 24, 20, 16, 12, 8, 4, 0].map digit ++ chars "\n")

/-- The digits in scratch, the lowest first, in at most as many bytes as it has. -/
def scratch : Nat → Nat → List Byte
  | 0, _ => []
  | room+1, value =>
    BitVec.ofNat 8 (48 + value % 10) :: if value / 10 ≠ 0 then scratch room (value / 10) else []

def putDec (b : Buffer) (text : Option (List Byte)) (value : Word) : Buffer :=
  print b (label text ++ (scratch 11 value.toNat).reverse ++ chars "\n")

def zeroByte (b : Buffer) (i : Nat) : Buffer :=
  { b with
    ram := b.ram.store8 (bufferByte i) 0
    text := Function.update b.text (bufferByte i) false }

/-- The loop that zeroes the buffer. -/
def wipe (b : Buffer) : Buffer := (List.range bufferSize).foldl zeroByte b

def init (b : Buffer) : Buffer :=
  puts { wipe b with offset := 0, wrapped := false } (some (chars "[riscv] trace init\n"))

inductive Call where
  | init
  | puts (text : Option (List Byte))
  | putHex32 (label : Option (List Byte)) (value : Word)
  | putDec (label : Option (List Byte)) (value : Word)
  deriving DecidableEq, Repr

def Call.apply (b : Buffer) : Call → Buffer
  | .init => Trace.init b
  | .puts text => Trace.puts b text
  | .putHex32 label value => Trace.putHex32 b label value
  | .putDec label value => Trace.putDec b label value

theorem bufferByte_injective {i j : Nat} (hi : i < bufferSize) (hj : j < bufferSize)
    (h : bufferByte i = bufferByte j) : i = j := by
  have hs : bufferSize = 0x8000 := rfl
  have ha : ipcTraceBufferAddr.toNat = 0x07136000 := rfl
  have hn := congrArg BitVec.toNat h
  rw [bufferByte, bufferByte, Memory.toNat_add_small (by omega), Memory.toNat_add_small (by omega)] at hn
  omega

/-- Where printed characters are, for a byte that only Trace has written: below
the offset, and after a wrap everywhere but at the offset. -/
structure Buffer.Printed (b : Buffer) (k : Nat) : Prop where
  offset : b.offset ≤ bufferSize - 1
  text : k ≠ b.offset → (b.text (bufferByte k) = true ↔ k < b.offset ∨ b.wrapped = true)

/-- Between two calls the terminator is at the offset. -/
structure Buffer.AtRest (b : Buffer) (k : Nat) : Prop extends b.Printed k where
  terminated : k = b.offset → b.text (bufferByte k) = false

variable {b : Buffer} {k : Nat}

private theorem bufferByte_ne {o : Nat} (hk : k < bufferSize - 1) (ho : o < bufferSize) (h : k ≠ o) :
    bufferByte k ≠ bufferByte o :=
  fun he => h (bufferByte_injective (by omega) ho he)

theorem Buffer.Printed.putChar (h : b.Printed k) (hk : k < bufferSize - 1) (c : Byte) :
    (putCharUnlocked b c).Printed k := by
  have hs : bufferSize = 0x8000 := rfl
  obtain ⟨ho, ht⟩ := h
  unfold putCharUnlocked
  by_cases hwrap : b.offset ≥ bufferSize - 1
  · simp only [if_pos hwrap]
    refine ⟨by simp only; omega, fun hne => ?_⟩
    by_cases h0 : k = 0
    · simp [h0]
    · simp only [Function.update_of_ne (bufferByte_ne hk (by omega) h0), ht (by omega), or_true, iff_true]
      omega
  · simp only [if_neg hwrap]
    refine ⟨by simp only; omega, fun hne => ?_⟩
    by_cases h0 : k = b.offset
    · simp [h0]
    · simp only [Function.update_of_ne (bufferByte_ne hk (by omega) h0), ht h0]
      exact or_congr_left (by omega)

theorem Buffer.Printed.terminate (h : b.Printed k) (hk : k < bufferSize - 1) : (terminateUnlocked b).AtRest k := by
  have hs : bufferSize = 0x8000 := rfl
  have ho := h.offset
  refine ⟨⟨ho, fun hne => ?_⟩, fun he => ?_⟩
  · simp only [terminateUnlocked] at hne ⊢
    rw [Function.update_of_ne (bufferByte_ne hk (by omega) hne)]
    exact h.text hne
  · simp only [terminateUnlocked] at he ⊢
    rw [he, Function.update_self]

theorem Buffer.Printed.print (h : b.Printed k) (hk : k < bufferSize - 1) (cs : List Byte) :
    (print b cs).AtRest k := by
  refine Buffer.Printed.terminate ?_ hk
  induction cs generalizing b with
  | nil => exact h
  | cons c cs ih => exact ih (h.putChar hk c)

theorem wipe_text (b : Buffer) (hk : k < bufferSize) : (wipe b).text (bufferByte k) = false := by
  have zeroed (is : List Nat) (b : Buffer) (h : k ∈ is ∨ b.text (bufferByte k) = false) :
      (is.foldl zeroByte b).text (bufferByte k) = false := by
    induction is generalizing b with
    | nil => exact h.resolve_left (by simp)
    | cons i is ih =>
      apply ih
      by_cases hi : bufferByte k = bufferByte i
      · exact .inr (by simp [zeroByte, hi])
      · refine h.imp (fun hm => ?_) fun hb => by simpa [zeroByte, hi] using hb
        exact (List.mem_cons.mp hm).resolve_left fun he => hi (congrArg bufferByte he)
  rw [wipe]
  apply zeroed
  left
  rw [List.mem_range]
  exact hk

private theorem printed_rewind (h : b.text (bufferByte k) = false) :
    { b with offset := 0, wrapped := false }.Printed k := by
  refine ⟨Nat.zero_le _, fun _ => ?_⟩
  simp [h]

theorem Buffer.AtRest.call (h : b.AtRest k) (hk : k < bufferSize - 1) (call : Call) : (call.apply b).AtRest k := by
  cases call with
  | init =>
    have hlt : k < bufferSize := by omega
    exact (printed_rewind (wipe_text b hlt)).print hk _
  | puts text =>
    cases text with
    | none => exact h
    | some text => exact h.toPrinted.print hk _
  | putHex32 label value => exact h.toPrinted.print hk _
  | putDec label value => exact h.toPrinted.print hk _

end IoProcessor.Hal.Trace
