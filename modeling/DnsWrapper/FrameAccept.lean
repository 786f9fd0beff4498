import DnsWrapper.ByteRegion
import DnsWrapper.RawBounds

/-! What InPacket::Read accepts: the headers of a UDP frame and anything behind them. Of an IPv6
header it does not look at the version. -/
namespace DnsWrapper.Net
open ByteReader ByteRegion ByteWord NetCommon InPacket Dns

section Pieces
variable {d : List UInt8} {p : Nat}

/- The bytes from an offset on. -/
def octets (d : List UInt8) (p n : Nat) : Vector UInt8 n := Vector.ofFn fun i => d.getD (p + i) 0

theorem holds_octets {n : Nat} (h : p + n ≤ d.length) : Holds d p (octets d p n).toList := by
  rw [holds_iff]
  intro j hj
  rw [Vector.length_toList] at hj
  have hlt : p + j < d.length := by omega
  simp [octets, hlt, hj]

theorem holds_byte (h : p < d.length) : Holds d p [d.getD p 0] := by
  rw [holds_iff]
  intro j hj
  obtain rfl : j = 0 := by
    rw [List.length_singleton] at hj
    omega
  simp [h]

theorem holds_word (h : p + 2 ≤ d.length) : Holds d p (bytes16 (wordAt d p)) := by
  rw [wordAt, bytes16_join16]
  exact holds_append.mpr ⟨holds_byte (by omega), holds_byte (d := d) (p := p + 1) (by omega)⟩

theorem holds_options (n : Nat) (h : p + 4 * n ≤ d.length) :
    Holds d p (((List.range n).map fun i => octets d (p + 4 * i) 4).flatMap Vector.toList) := by
  induction n with
  | zero => exact List.nil_prefix
  | succ n ih =>
    have hlast : Holds d (p + 4 * n) (octets d (p + 4 * n) 4).toList := holds_octets (by omega)
    rw [List.range_succ, List.map_append, List.flatMap_append, holds_append, length_options,
      List.length_map, List.length_range]
    exact ⟨ih (by omega), by simpa using hlast⟩

def tagAt (d : List UInt8) (p : Nat) : VlanTag := ⟨wordAt d p = ethP8021AD, wordAt d (p + 2)⟩

theorem tagAt_protocol (h : isVlan (wordAt d p) = true) : (tagAt d p).protocol = wordAt d p := by
  by_cases hservice : wordAt d p = ethP8021AD
  · simp [tagAt, VlanTag.protocol, hservice]
  · simp only [isVlan, hservice, decide_false, Bool.or_false, decide_eq_true_eq] at h
    rw [tagAt, VlanTag.protocol, h]
    rfl

theorem length_tag (t : VlanTag) : t.bytes.length = 4 := rfl

theorem holds_tag (h : isVlan (wordAt d p) = true) (hlen : p + 4 ≤ d.length) :
    Holds d p (tagAt d p).bytes := by
  rw [VlanTag.bytes, tagAt_protocol h]
  exact holds_append.mpr ⟨holds_word (by omega), holds_word (d := d) (p := p + 2) (by omega)⟩

/- The tags that Read skips. -/
def tagsOf (d : List UInt8) : List VlanTag :=
  if isVlan (wordAt d 12) then
    if isVlan (wordAt d 16) then [tagAt d 12, tagAt d 16] else [tagAt d 12]
  else []

theorem length_tagsOf (d : List UInt8) : (tagsOf d).length = tagCount d := by
  rw [tagsOf, tagCount]
  split_ifs <;> rfl

theorem holds_tags (h : ipStart d ≤ d.length) :
    Holds d 12 ((tagsOf d).flatMap VlanTag.bytes ++ bytes16 (wordAt d (ipStart d - 2))) := by
  have hstart : ipStart d = ethHdrSize + vlanHdrSize * (tagsOf d).length := by
    rw [length_tagsOf, ipStart]
  rw [hstart] at h ⊢
  rw [ethHdrSize, vlanHdrSize] at h ⊢
  rw [holds_append, length_tags]
  constructor
  · rw [tagsOf] at h ⊢
    split_ifs at h ⊢ with hone htwo
    · simp only [List.length_cons, List.length_nil] at h
      simp only [List.flatMap_cons, List.flatMap_nil, List.append_nil]
      rw [holds_append, length_tag]
      exact ⟨holds_tag hone (by omega), holds_tag htwo (by omega)⟩
    · simp only [List.length_cons, List.length_nil] at h
      simp only [List.flatMap_cons, List.flatMap_nil, List.append_nil]
      exact holds_tag hone (by omega)
    · exact List.nil_prefix
  · have hpos : 14 + 4 * (tagsOf d).length - 2 = 12 + 4 * (tagsOf d).length := by omega
    rw [hpos]
    exact holds_word (by omega)

end Pieces

section Headers
variable {d : List UInt8}

/- The first byte of an IPv4 header. -/
theorem of_first_byte : ∀ k : Fin 256, UInt8.ofNat k &&& 0xf0 = 0x40 →
    20 ≤ ((UInt8.ofNat k &&& 0x0f) * 4).toNat → UInt8.ofNat k = UInt8.ofNat (0x40 + k % 16) ∧
      ((UInt8.ofNat k &&& 0x0f) * 4).toNat = 4 * (k % 16) := by
  decide +kernel

theorem holds_ipv4 {ip : Nat} (hversion : d.getD ip 0 &&& 0xf0 = 0x40)
    (hsize : 20 ≤ ((d.getD ip 0 &&& 0x0f) * 4).toNat) (hudp : d.getD (ip + 9) 0 = ipProtoUdp)
    (hlen : ip + ((d.getD ip 0 &&& 0x0f) * 4).toNat ≤ d.length) :
    ∃ h : Ipv4Header, Holds d ip h.bytes ∧
      h.bytes.length = ((d.getD ip 0 &&& 0x0f) * 4).toNat := by
  obtain ⟨hfirst, heq⟩ := of_first_byte ⟨(d.getD ip 0).toNat, (d.getD ip 0).toNat_lt⟩
    (by rwa [UInt8.ofNat_toNat]) (by rwa [UInt8.ofNat_toNat])
  obtain ⟨n, hn⟩ : ∃ n, (d.getD ip 0).toNat % 16 = 5 + n := by
    simp only [UInt8.ofNat_toNat] at heq
    exact ⟨(d.getD ip 0).toNat % 16 - 5, by omega⟩
  rw [UInt8.ofNat_toNat, hn] at hfirst heq
  rw [heq] at hlen
  refine ⟨⟨octets d (ip + 1) 8, octets d (ip + 10) 2, octets d (ip + 12) 4, octets d (ip + 16) 4,
    (List.range n).map fun i => octets d (ip + 20 + 4 * i) 4, ?_⟩, ?_, ?_⟩
  · rw [List.length_map, List.length_range]
    omega
  · have hbyte : Holds d ip [d.getD ip 0] := holds_byte (by omega)
    have hproto : Holds d (ip + 9) [d.getD (ip + 9) 0] := holds_byte (by omega)
    rw [hfirst] at hbyte
    rw [hudp] at hproto
    simp only [Ipv4Header.bytes, holds_append, List.length_append, Vector.length_toList,
      List.length_map, List.length_range, List.length_singleton]
    exact ⟨⟨⟨⟨⟨⟨hbyte, holds_octets (by omega)⟩, hproto⟩, holds_octets (by omega)⟩,
      holds_octets (by omega)⟩, holds_octets (by omega)⟩, holds_options n (by omega)⟩
  · rw [Ipv4Header.length_bytes, heq]
    simp only [List.length_map, List.length_range]
    omega

end Headers

/- The header with another first byte. -/
def Ipv6Header.bytesFrom (h : Ipv6Header) (first : UInt8) : List UInt8 := first :: h.bytes.tail

/- The bytes of a header; Read does not look at the first one of an IPv6 header. -/
def IpHeader.bytesFrom (first : UInt8) : IpHeader → List UInt8
  | v4 h => h.bytes
  | v6 h => h.bytesFrom first

/- The headers of a frame, with this byte in the place of the version of an IPv6 header. -/
def Frame.headersFrom (f : Frame) (first : UInt8) : List UInt8 :=
  f.ethHeader ++ f.ip.bytesFrom first ++ f.udpHeader

section Accept
variable {d : List UInt8}

/- The first six bytes of an IPv6 header, with the version in place. -/
def versioned (d : List UInt8) (ip : Nat) : Vector UInt8 6 := #v[(0x60 : UInt8)] ++ octets d (ip + 1) 5

theorem toList_versioned (d : List UInt8) (ip : Nat) :
    (versioned d ip).toList = 0x60 :: (octets d (ip + 1) 5).toList := by
  rw [versioned, Vector.toList_append]
  rfl

theorem holds_ipv6 {ip : Nat} (hudp : d.getD (ip + 6) 0 = ipProtoUdp)
    (hlen : ip + ipv6HdrSize ≤ d.length) :
    ∃ h : Ipv6Header, Holds d ip (h.bytesFrom (d.getD ip 0)) ∧
      (h.bytesFrom (d.getD ip 0)).length = ipv6HdrSize := by
  rw [ipv6HdrSize] at hlen
  have hversion : ∀ b ∈ (versioned d ip).toList.head?, b &&& 0xf0 = 0x60 := by
    intro b hb
    rw [toList_versioned] at hb
    cases hb
    decide
  have hbytes : (Ipv6Header.mk (versioned d ip) hversion (d.getD (ip + 7) 0)
      (octets d (ip + 8) 16) (octets d (ip + 24) 16)).bytesFrom (d.getD ip 0) =
      [d.getD ip 0] ++ (octets d (ip + 1) 5).toList ++ [ipProtoUdp] ++ [d.getD (ip + 7) 0] ++
        (octets d (ip + 8) 16).toList ++ (octets d (ip + 24) 16).toList := by
    rw [Ipv6Header.bytesFrom, Ipv6Header.bytes, toList_versioned]
    rfl
  refine ⟨_, ?_, by rw [hbytes, ipv6HdrSize]; simp⟩
  have hproto : Holds d (ip + 6) [d.getD (ip + 6) 0] := holds_byte (by omega)
  rw [hudp] at hproto
  rw [hbytes]
  simp only [holds_append, List.length_append, Vector.length_toList, List.length_singleton]
  exact ⟨⟨⟨⟨⟨holds_byte (by omega), holds_octets (by omega)⟩, hproto⟩, holds_byte (by omega)⟩,
    holds_octets (by omega)⟩, holds_octets (by omega)⟩

theorem holds_ip {u : Nat} (hu : udpStart d = some u) (hlen : u + udpHdrSize ≤ d.length) :
    ∃ h : IpHeader, h.protocol = wordAt d (ipStart d - 2) ∧
      Holds d (ipStart d) (h.bytesFrom (d.getD (ipStart d) 0)) ∧
      ipStart d + (h.bytesFrom (d.getD (ipStart d) 0)).length = u := by
  rw [udpStart] at hu
  split_ifs at hu with hv4 hfields hfields
  · cases hu
    obtain ⟨h, hbytes, hsize⟩ := holds_ipv4 hfields.1 hfields.2.1 hfields.2.2 (by omega)
    exact ⟨.v4 h, hv4.symm, hbytes, congrArg (ipStart d + ·) hsize⟩
  · cases hu
    obtain ⟨h, hbytes, hsize⟩ := holds_ipv6 hfields.2 (by omega)
    exact ⟨.v6 h, hfields.1.symm, hbytes, congrArg (ipStart d + ·) hsize⟩

/-- The bytes up to the end of the UDP header are those of a frame. -/
theorem exists_frame {u : Nat} (hu : udpStart d = some u) (hlen : u + udpHdrSize ≤ d.length) :
    ∃ f : Frame, Holds d 0 (f.headersFrom (d.getD (ipStart d) 0)) := by
  obtain ⟨h, hprotocol, hip, hend⟩ := holds_ip hu hlen
  rw [udpHdrSize] at hlen
  have htags : (tagsOf d).length ≤ vlanMaxDepth := by
    rw [tagsOf, vlanMaxDepth]
    split_ifs <;> simp
  have hstart : 12 + ((tagsOf d).flatMap VlanTag.bytes ++
      bytes16 (wordAt d (ipStart d - 2))).length = ipStart d := by
    rw [List.length_append, length_tags, length_tagsOf, ipStart, ethHdrSize, vlanHdrSize]
    change 12 + (4 * tagCount d + 2) = _
    omega
  refine ⟨⟨⟨octets d 0 6⟩, ⟨octets d 6 6⟩, tagsOf d, htags, h, wordAt d u, wordAt d (u + 2),
    wordAt d (u + 4), wordAt d (u + 6), []⟩, ?_⟩
  have htagged := holds_tags (d := d) (by omega)
  simp only [Frame.headersFrom, Frame.ethHeader, hprotocol]
  generalize hrest : (tagsOf d).flatMap VlanTag.bytes ++ bytes16 (wordAt d (ipStart d - 2)) = rest
    at hstart htagged ⊢
  rw [holds_append, holds_append, holds_append, holds_append]
  simp only [List.length_append, Vector.length_toList, Nat.zero_add]
  have hudp : 6 + 6 + rest.length + (h.bytesFrom (d.getD (ipStart d) 0)).length = u := by omega
  have hip' : 6 + 6 + rest.length = ipStart d := hstart
  rw [hudp, hip']
  refine ⟨⟨⟨⟨holds_octets (by omega), holds_octets (by omega)⟩, htagged⟩, hip⟩, ?_⟩
  simp only [Frame.udpHeader, holds_append]
  exact ⟨⟨⟨holds_word (by omega), holds_word (d := d) (p := u + 2) (by omega)⟩,
    holds_word (d := d) (p := u + 4) (by omega)⟩, holds_word (d := d) (p := u + 6) (by omega)⟩

end Accept

section Yields
variable (order : ByteOrder) (src dst : IpAddress) (first : UInt8)

theorem Ipv6Header.length_bytesFrom (h : Ipv6Header) : (h.bytesFrom first).length = ipv6HdrSize := by
  simp [bytesFrom, bytes, ipv6HdrSize]

theorem yields_ipv6From (h : Ipv6Header) :
    Yields (readIpv6 order src dst) (h.bytesFrom first)
      (ipProtoUdp, ⟨h.source⟩, ⟨h.destination⟩) := by
  obtain ⟨b, tail, htail⟩ : ∃ b tail, h.fields.toList = b :: tail :=
    List.exists_cons_of_length_pos (by simp)
  have hlen : tail.length = 5 := by
    have hall := congrArg List.length htail
    rw [Vector.length_toList, List.length_cons] at hall
    omega
  have hskip : Yields (skip 6 : Reader Code Unit) (first :: tail) () :=
    yields_skip (by rw [List.length_cons, hlen])
  have hhop : Yields (skip 1 : Reader Code Unit) [h.hopLimit] () := yields_skip rfl
  have hbytes : h.bytesFrom first = (first :: tail) ++ ([ipProtoUdp] ++ ([h.hopLimit] ++
      (h.source.toList ++ h.destination.toList))) := by
    simp [Ipv6Header.bytesFrom, Ipv6Header.bytes, htail]
  apply yields_validate (by rw [h.length_bytesFrom])
  rw [hbytes]
  exact yields_bind hskip (yields_bind (yields_vreadByte ipProtoUdp) (yields_bind hhop
    (yields_bind (yields_readWords order src h.source)
      (yields_map _ (yields_readWords order dst h.destination)))))

theorem yields_ipFrom (h : IpHeader) :
    Yields (readIp order src dst h.protocol) (h.bytesFrom first)
      (h.source.isV4, ipProtoUdp, h.source.store src, h.destination.store dst) := by
  cases h with
  | v4 h => exact yields_map _ (yields_readIpv4 order src dst h)
  | v6 h => exact yields_map _ (yields_ipv6From order src dst first h)

/-- Whatever the byte with the version, Read finds the fields. -/
theorem yields_headersFrom (f : Frame) :
    Yields (read order src dst) (f.headersFrom first) (f.packet src dst, f.udpLength) := by
  have hlen : ethHdrSize ≤ (f.headersFrom first).length := by
    simp [Frame.headersFrom, Frame.ethHeader, bytes16, ethHdrSize]
    omega
  apply yields_validate hlen
  simp only [Frame.headersFrom, Frame.ethHeader, List.append_assoc]
  rw [← List.append_assoc (f.tags.flatMap VlanTag.bytes)]
  exact yields_bind (yields_readEth f.ethDestination) (yields_bind (yields_readEth f.ethSource)
    (yields_bind (yields_readVlan f.tags f.ip f.tags_le) (yields_bind
      (yields_ipFrom order src dst first f.ip) (yields_map _ (yields_readUdp f)))))

end Yields

end DnsWrapper.Net
