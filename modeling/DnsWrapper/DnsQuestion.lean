import Mathlib.Data.List.TakeWhile
import DnsWrapper.DnsHeader

/-! Names and questions: ReadLabel with its compression pointers, WriteLabel with its
back-patched length bytes, and the question record around them. -/
namespace DnsWrapper.Dns
open ByteReader ByteWriter ByteWord NetCommon

/- The contents of a NUL-terminated char array, as strlen and *c see them. -/
structure CString where
  bytes : List UInt8
  noNul : (0 : UInt8) ∉ bytes
  deriving DecidableEq, Repr

namespace CString

def empty : CString := ⟨[], by simp⟩

def ofArray (bs : List UInt8) : CString where
  bytes := bs.takeWhile (fun b => b != 0)
  noNul := by
    intro h
    have hz := List.all_takeWhile (p := fun b : UInt8 => b != 0) (l := bs)
    simp only [List.all_eq_true] at hz
    simpa using hz 0 h

theorem ofArray_of_noNul (s : CString) : ofArray s.bytes = s := by
  obtain ⟨bs, hs⟩ := s
  have h : bs.takeWhile (fun b => b != 0) = bs := by
    rw [List.takeWhile_eq_self_iff]
    intro b hb
    have hne : b ≠ 0 := by
      intro he
      exact hs (he ▸ hb)
    simpa using hne
  simp only [ofArray, h]

end CString

/- The names of the examples: w.ab and a. -/
def sampleName : CString := ⟨[119, 46, 97, 98], by decide⟩
def shortName : CString := ⟨[97], by decide⟩

def dot : UInt8 := 46

/- The locals of ReadLabel. The i-th byte of out is the one stored at storage[i]. -/
structure LabelState where
  jumps : Nat
  out : List UInt8
  resume : Nat

/- A pointer whose first byte is c: moves the cursor to the target and returns the
   position after the pointer. -/
def followPointer (c : UInt8) : Reader Code Nat := do
  let d ← vreadU8
  let size ← nominal
  if (join16 (c ^^^ 0xc0) d).toNat ≥ size then fail eFormErr
  else do
    let pos ← here
    seek (join16 (c ^^^ 0xc0) d).toNat
    pure pos

/- A label of c bytes. -/
def takeLabel (c : UInt8) : Reader Code (List UInt8) := do
  let pos ← here
  let size ← nominal
  if pos + c.toNat ≥ size then fail eFormErr else bytes c.toNat

/- The while loop; c is the length byte read last. -/
def readLabelLoop : Nat → UInt8 → LabelState → Reader Code LabelState
  | 0, _, _ => exhausted
  | fuel + 1, c, st =>
    if c ≠ 0 ∧ st.jumps < maxJumps then
      if c &&& 0xc0 = 0xc0 then do
        let pos ← followPointer c
        let c' ← vreadU8
        readLabelLoop fuel c' { st with jumps := st.jumps + 1, resume := pos }
      else if c &&& 0x40 = 0x40 ∨ c &&& 0x80 = 0x80 then fail eNotImp
      else do
        let label ← takeLabel c
        let c' ← vreadU8
        readLabelLoop fuel c' { st with out := st.out ++ label ++ [dot] }
    else pure st

/- The final store replaces the last dot by NUL. When no byte was stored it falls on
   storage[-1], outside the array, which then still holds what it held before. -/
def LabelState.name (st : LabelState) (old : CString) : CString :=
  if st.out = [] then old else CString.ofArray st.out.dropLast

/- Each turn of the loop either passes a byte of the packet or uses up a jump. -/
def labelFuel (size : Nat) : Nat := (maxJumps + 1) * (size + 1)

/- The array storage is as long as the packet needs: a name of MAXDNAME bytes or more,
   for which the source runs over its end, is kept whole. -/
def readLabel (old : CString) : Reader Code CString := do
  let c ← vreadU8
  if c = 0 then pure CString.empty
  else do
    let size ← nominal
    let st ← readLabelLoop (labelFuel size) c { jumps := 0, out := [], resume := 0 }
    if st.jumps = maxJumps then fail eFormErr
    else if st.resume > 0 then do
      seek st.resume
      pure (st.name old)
    else pure (st.name old)

/- The locals of WriteLabel: slot is the reserved length byte, len its value so far. -/
structure LabelWriter where
  buf : List UInt8
  pos : Nat
  slot : Nat
  len : UInt8

def writeLength (s : LabelWriter) : Option LabelWriter :=
  (store s.slot s.len s.buf).map fun buf => { buf, pos := s.pos + 1, slot := s.pos, len := 0 }

def writeChar (c : UInt8) (s : LabelWriter) : Option LabelWriter :=
  if c = dot then writeLength s
  else (store s.pos c s.buf).map fun buf => { s with buf, pos := s.pos + 1, len := s.len + 1 }

def writeLabelLoop : List UInt8 → LabelWriter → Option LabelWriter
  | [], s => some s
  | c :: cs, s => (writeChar c s).bind (writeLabelLoop cs)

def writeLabel (name : CString) : Writer := ⟨fun buf pos => do
  let s ← writeLabelLoop name.bytes { buf, pos := pos + 1, slot := pos, len := 0 }
  let s ← writeLength s
  let buf ← store s.pos 0 s.buf
  pure (buf, s.pos)⟩

structure DnsQuestion where
  name : CString
  type : UInt16
  cls : UInt16
  deriving DecidableEq, Repr

namespace DnsQuestion

/- old is the content of the Name array before the call. -/
def read (old : CString) : Reader Code DnsQuestion := do
  let name ← readLabel old
  let type ← vreadU16
  let cls ← vreadU16
  pure { name, type, cls }

def validate (q : DnsQuestion) (pt : PacketType) : Code :=
  if pt = .incomingRequest then
    if q.type ≠ qtA ∧ q.type ≠ qtAAAA ∧ q.type ≠ qtNS ∧ q.type ≠ qtCName ∧ q.type ≠ qtMX ∧
        q.type ≠ qtOpt then eNotImp
    else if q.type ≠ qtOpt ∧ q.cls ≠ qtcIn then eNotImp
    else eNoError
  else eNoError

def write (q : DnsQuestion) : Writer :=
  andThen (writeLabel q.name) (andThen (writeU16 q.type) (writeU16 q.cls))

end DnsQuestion
end DnsWrapper.Dns
