import DnsWrapper.BlockBuffer
import DnsWrapper.DigestStream

/-! The streaming hash of tp/sha256.cpp against the hash of a whole message: the message is padded
to whole blocks of 64 bytes, and these are worked off in order. -/
namespace DnsWrapper.Sha256
open ByteWord BlockBuffer

/- How many zeros stand between the byte 0x80 and the length. -/
def zeros (length : Nat) : Nat := (119 - length % 64) % 64

def padded (message : List UInt8) : List UInt8 :=
  message ++ ([0x80] ++ List.replicate (zeros message.length) 0 ++
    lengthBytes (UInt64.ofNat (message.length * 8)))

def digest (s : State) : List UInt8 := [s.a, s.b, s.c, s.d, s.e, s.f, s.g, s.h].flatMap bytes32

def Ctx.buffer (ctx : Ctx) : Buffer UInt8 State := ⟨ctx.data, ctx.state⟩

/- The length of the input in bits, as the context has it. -/
def Ctx.bits (ctx : Ctx) : UInt64 := ctx.bitlen + UInt64.ofNat (ctx.data.length * 8)

theorem length_lengthBytes (v : UInt64) : (lengthBytes v).length = 8 := rfl

theorem buffer_updateByte (ctx : Ctx) (b : UInt8) :
    (updateByte ctx b).buffer = take 64 transform ctx.buffer b := by
  rw [take, Ctx.buffer, Ctx.buffer, updateByte]
  split_ifs <;> rfl

theorem bits_updateByte (ctx : Ctx) (b : UInt8) : (updateByte ctx b).bits = ctx.bits + 8 := by
  simp only [Ctx.bits, updateByte]
  split_ifs with hfull
  · have hlen : ctx.data.length = 63 := by simpa using hfull
    rw [hlen, UInt64.add_assoc, UInt64.add_assoc]
    rfl
  · rw [List.length_append, List.length_singleton, Nat.add_mul, UInt64.ofNat_add, UInt64.add_assoc]
    rfl

theorem update_concat (input : List UInt8) (b : UInt8) :
    update init (input ++ [b]) = updateByte (update init input) b := by
  rw [update, List.foldl_append]
  rfl

theorem bits_update (input : List UInt8) :
    (update init input).bits = UInt64.ofNat (input.length * 8) := by
  induction input using List.reverseRecOn with
  | nil => rfl
  | append_singleton input b ih =>
    rw [update_concat, bits_updateByte, ih, List.length_append, List.length_singleton, Nat.add_mul,
      UInt64.ofNat_add]
    rfl

theorem worked_update (input : List UInt8) :
    ∃ bs, Worked 64 transform init.state input bs (update init input).buffer := by
  have hbuffer : (update init input).buffer = input.foldl (take 64 transform) ⟨[], init.state⟩ :=
    (List.foldl_hom Ctx.buffer fun ctx b => (buffer_updateByte ctx b).symm).symm
  rw [hbuffer]
  exact worked_foldl (by decide) transform init.state input

/- The one or two blocks that sha256_final works off. -/
def lastBlocks (ctx : Ctx) : List (List UInt8) :=
  if ctx.data.length < 56 then
    [ctx.data ++ [0x80] ++ List.replicate (56 - (ctx.data ++ [0x80]).length) 0 ++ lengthBytes ctx.bits]
  else [ctx.data ++ [0x80] ++ List.replicate (64 - (ctx.data ++ [0x80]).length) 0,
    List.replicate 56 0 ++ lengthBytes ctx.bits]

theorem final_lastBlocks (ctx : Ctx) :
    final ctx = digest ((lastBlocks ctx).foldl transform ctx.state) := by
  rw [final, lastBlocks, digest, Ctx.bits]
  split_ifs <;> rfl

theorem length_lastBlocks {ctx : Ctx} (h : ctx.data.length < 64) :
    ∀ x ∈ lastBlocks ctx, x.length = 64 := by
  rw [lastBlocks]
  split_ifs with hshort
  · rw [List.forall_mem_singleton]
    simp only [List.length_append, List.length_replicate, List.length_singleton, length_lengthBytes]
    omega
  · rw [List.forall_mem_cons, List.forall_mem_singleton]
    simp only [List.length_append, List.length_replicate, List.length_singleton, length_lengthBytes]
    refine ⟨?_, trivial⟩
    omega

/- Together they hold what waits and the padding. -/
theorem flatten_lastBlocks {ctx : Ctx} {length : Nat} (h : ctx.data.length = length % 64) :
    (lastBlocks ctx).flatten =
      ctx.data ++ ([0x80] ++ List.replicate (zeros length) 0 ++ lengthBytes ctx.bits) := by
  have hlt : ctx.data.length < 64 := h ▸ Nat.mod_lt _ (by decide)
  rw [lastBlocks, zeros, ← h]
  split_ifs with hshort
  · have hzeros : (119 - ctx.data.length) % 64 = 56 - (ctx.data ++ [0x80]).length := by
      rw [List.length_append, List.length_singleton]
      omega
    rw [List.flatten_singleton, hzeros]
    simp only [List.append_assoc]
  · have hzeros : (119 - ctx.data.length) % 64 = 64 - (ctx.data ++ [0x80]).length + 56 := by
      rw [List.length_append, List.length_singleton]
      omega
    rw [hzeros, ← List.replicate_append_replicate]
    simp only [List.flatten_cons, List.flatten_nil, List.append_nil, List.append_assoc]

/-- sha256_init, sha256_update and sha256_final work off the blocks of the padded message. -/
theorem final_update (message : List UInt8) : ∃ bs : List (List UInt8),
    (∀ x ∈ bs, x.length = 64) ∧ bs.flatten = padded message ∧
    final (update init message) = digest (bs.foldl transform init.state) := by
  obtain ⟨bs, h⟩ := worked_update message
  have hlength : (update init message).data.length = message.length % 64 := by
    have hin := congrArg List.length h.input
    have hroom := h.room
    rw [List.length_append, length_flatten_blocks h.blocks] at hin
    rw [← hin, Nat.mul_add_mod, Nat.mod_eq_of_lt hroom]
    rfl
  refine ⟨bs ++ lastBlocks (update init message), ?_, ?_, ?_⟩
  · rw [List.forall_mem_append]
    exact ⟨h.blocks, length_lastBlocks h.room⟩
  · have hin : bs.flatten ++ (update init message).data = message := h.input
    rw [List.flatten_append, flatten_lastBlocks hlength, ← List.append_assoc, hin, bits_update,
      padded]
  · have hstate : (update init message).state = bs.foldl transform init.state := h.state
    rw [final_lastBlocks, List.foldl_append, hstate]

end DnsWrapper.Sha256

namespace DnsWrapper.Dns.DnsPacket
open Sha256

/- The blocks of the padded stream of questions. -/
structure DigestBlocks (p : DnsPacket) (bs : List (List UInt8)) : Prop where
  length : ∀ x ∈ bs, x.length = 64
  flatten : bs.flatten = padded p.digestStream

/-- The digest of a query, which is updated in three pieces for each question, is that of the
padded stream of all questions, block by block; and there is one such way to cut the stream. -/
theorem hash_blocks (p : DnsPacket) :
    (∃ bs, p.DigestBlocks bs) ∧
      ∀ bs, p.DigestBlocks bs → p.hash = digest (bs.foldl transform init.state) := by
  obtain ⟨bs, hlength, hflatten, hfinal⟩ := final_update p.digestStream
  refine ⟨⟨bs, hlength, hflatten⟩, ?_⟩
  rintro bs' ⟨hlength', hflatten'⟩
  have hsame : bs' = bs := BlockBuffer.blocks_unique (by decide) hlength' hlength
    (hflatten'.trans hflatten.symm)
  rw [hash_eq, hfinal, hsame]

end DnsWrapper.Dns.DnsPacket
