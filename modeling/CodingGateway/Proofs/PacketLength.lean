import CodingGateway.Proofs.Transfer
set_option autoImplicit false

/-!
# Stripping the padding

The sum `payload + 40` of an IPv6 header is taken in 16 bits.  Where it wraps it is below
40, so the range check refuses it as it would refuse the sum itself.

* `ipPacketLength_exact` — `ip_packet_length` against the length in exact arithmetic.
-/

namespace CodingGateway.Proofs.PacketLength

open CodingGateway.Model
open CodingGateway.Proofs.Transfer
open CodingGateway.Proofs.Wire

def versionOf (pkt : Bytes) : ℕ := (pkt 0).toNat / 16

def field16 (pkt : Bytes) (off : ℕ) : ℕ := (pkt off).toNat * 256 + (pkt (off + 1)).toNat

/-- The length that the header declares if it fits the buffer, else that of the buffer. -/
def exactLength (pkt : Bytes) (paddedLen : ℕ) : ℕ :=
  if versionOf pkt = 4 ∧ 20 ≤ paddedLen ∧ 20 ≤ field16 pkt 2 ∧ field16 pkt 2 ≤ paddedLen then
    field16 pkt 2
  else if versionOf pkt = 6 ∧ 40 ≤ paddedLen ∧ 40 ≤ field16 pkt 4 + 40 ∧
      field16 pkt 4 + 40 ≤ paddedLen then
    field16 pkt 4 + 40
  else paddedLen

theorem toNat_readBe16 (pkt : Bytes) (off : ℕ) : (readBe16 pkt off).toNat = field16 pkt off :=
  toNat_joinBe16 (pkt off) (pkt (off + 1))

theorem toNat_version (pkt : Bytes) : ((pkt 0 >>> 4) &&& 0x0F).toNat = versionOf pkt := by
  have hlt := (pkt 0).toNat_lt
  calc ((pkt 0 >>> 4) &&& 0x0F).toNat
      = (pkt 0).toNat >>> 4 &&& (2 ^ 4 - 1) := by
        rw [UInt8.toNat_and, UInt8.toNat_shiftRight]
        rfl
    _ = (pkt 0).toNat / 16 % 16 := by
        rw [Nat.and_two_pow_sub_one_eq_mod, Nat.shiftRight_eq_div_pow]
    _ = versionOf pkt := Nat.mod_eq_of_lt (by omega)

theorem version_eq_iff (pkt : Bytes) (v : UInt8) :
    (pkt 0 >>> 4) &&& 0x0F = v ↔ versionOf pkt = v.toNat := by
  rw [← toNat_version, UInt8.toNat_inj]

/-- The check on the wrapped sum is the check on the sum. -/
theorem inRange_wrapped_iff (payload len : UInt16) :
    40 ≤ payload + 40 ∧ payload + 40 ≤ len ↔ payload.toNat + 40 ≤ len.toNat := by
  have hpayload := payload.toNat_lt
  have hlen := len.toNat_lt
  have hforty : (40 : UInt16).toNat = 40 := rfl
  rw [UInt16.le_iff_toNat_le, UInt16.le_iff_toNat_le, UInt16.toNat_add, hforty]
  omega

theorem toNat_ipPacketLength (pkt : Bytes) (paddedLen : UInt16) :
    (ipPacketLength pkt paddedLen).toNat = exactLength pkt paddedLen.toNat := by
  have hver4 : (pkt 0 >>> 4) &&& 0x0F = 4 ↔ versionOf pkt = 4 := version_eq_iff pkt 4
  have hver6 : (pkt 0 >>> 4) &&& 0x0F = 6 ↔ versionOf pkt = 6 := version_eq_iff pkt 6
  have h20 : (20 : UInt16) ≤ paddedLen ↔ 20 ≤ paddedLen.toNat := UInt16.le_iff_toNat_le
  have h40 : (40 : UInt16) ≤ paddedLen ↔ 40 ≤ paddedLen.toNat := UInt16.le_iff_toNat_le
  have htotal4 : 20 ≤ readBe16 pkt 2 ∧ readBe16 pkt 2 ≤ paddedLen ↔
      20 ≤ field16 pkt 2 ∧ field16 pkt 2 ≤ paddedLen.toNat := by
    rw [UInt16.le_iff_toNat_le, UInt16.le_iff_toNat_le, toNat_readBe16]
    rfl
  have htotal6 := inRange_wrapped_iff (readBe16 pkt 4) paddedLen
  rw [toNat_readBe16] at htotal6
  unfold ipPacketLength exactLength
  simp only [hver4, hver6, h20, h40, htotal4, htotal6]
  by_cases hv4 : versionOf pkt = 4
  · -- the two range checks of the specification are those of the code
    have hnot6 : ¬ (4 : ℕ) = 6 := by decide
    simp only [hv4, hnot6, true_and, false_and, if_true, if_false]
    split_ifs with hlong hin hall hall hall
    · exact toNat_readBe16 pkt 2
    · exact absurd ⟨hlong, hin⟩ hall
    · exact absurd hall.2 hin
    · rfl
    · exact absurd hall.1 hlong
    · rfl
  · simp only [hv4, false_and, if_false]
    split_ifs with hlong hv6 hin hall hall hall hall
    · have hlen := paddedLen.toNat_lt
      have hforty : (40 : UInt16).toNat = 40 := rfl
      rw [UInt16.toNat_add, toNat_readBe16, hforty, Nat.mod_eq_of_lt (by omega)]
    · exact absurd ⟨hv6.1, hv6.2, Nat.le_add_left .., hin⟩ hall
    · exact absurd hall.2.2.2 hin
    · rfl
    · exact absurd ⟨hall.1, hall.2.1⟩ hv6
    · rfl
    · omega
    · rfl

/-- **Exact stripping.** `ip_packet_length` returns the declared length in exact arithmetic when
it lies in the buffer, and the buffer's otherwise; never more, and for a packet that gives its
own length and any zeros after it, the length of the packet. -/
theorem ipPacketLength_exact (pkt : Bytes) (paddedLen : UInt16) :
    (ipPacketLength pkt paddedLen).toNat = exactLength pkt paddedLen.toNat ∧
      ipPacketLength pkt paddedLen ≤ paddedLen ∧
      ∀ packet : List UInt8, IsIpPacket packet → ∀ zeros, packet.length + zeros < 2 ^ 16 →
        (ipPacketLength (arrayOf (packet ++ List.replicate zeros 0))
          (UInt16.ofNat (packet.length + zeros))).toNat = packet.length := by
  refine ⟨toNat_ipPacketLength pkt paddedLen, ipPacketLength_le pkt paddedLen, ?_⟩
  intro packet hpacket zeros hlt
  have hlen : (UInt16.ofNat (packet.length + zeros)).toNat = packet.length + zeros := by
    rw [UInt16.toNat_ofNat', Nat.mod_eq_of_lt hlt]
  apply ipPacketLength_eq hpacket
  · rw [hlen]
    exact Nat.le_add_right ..
  · intro t ht
    exact arrayOf_append_left ht

def emptyIpv4 : List UInt8 := [0x45, 0, 0, 20] ++ List.replicate 16 0

theorem ipPacketLength_exact_header :
    IsIpPacket emptyIpv4 ∧ emptyIpv4.length + 5 < 2 ^ 16 ∧
      (ipPacketLength (arrayOf (emptyIpv4 ++ List.replicate 5 0)) (UInt16.ofNat 25)).toNat = 20 :=
  have hip : IsIpPacket emptyIpv4 := Or.inl ⟨by decide, by decide, by decide⟩
  ⟨hip, by decide, (ipPacketLength_exact (arrayOf emptyIpv4) 25).2.2 emptyIpv4 hip 5 (by decide)⟩

/-- A payload length of 65535 wraps to a total of 39, which is out of range. -/
example : ipPacketLength (arrayOf [0x60, 0, 0, 0, 0xFF, 0xFF]) 1400 = 1400 := by decide

end CodingGateway.Proofs.PacketLength
