import Hairgap.Source.Encoding

/-!
# Configuration

hairgap.h:34-83, config.c:34-57,90-166. The fields the modelled functions read. A file is known by
its handle and an address by its text; what the C library answers about them is a parameter. The
messages are left out.
-/
namespace Hairgap.Source

structure HgapConfig where
  inFile : Option Nat
  outFile : Option Nat
  nPkt : UInt32
  pktSize : Nat
  redund : Double
  addr : Option String
  memLimit : Nat
  deriving DecidableEq, Repr

/-- `getaddrinfo` on an address, and `ferror` on a file. -/
structure Host where
  getaddrinfo : String → Int
  ferror : Nat → Bool

/-- `hgap_defaults`, with the standard streams by their descriptors. The address is left to
the user. -/
def hgapDefaults : HgapConfig :=
  ⟨some 0, some 1, 1000, 1400, .fin (Double.nearest (6 / 5)), none, 100 * 1024 * 1024⟩

section
variable (host : Host)

def checkAddr : Option String → Hgap
  | none => .errInvalidAddr
  | some addr => if host.getaddrinfo addr ≠ 0 then .errInvalidAddr else .success

def checkFile : Option Nat → Hgap
  | none => .errBadFd
  | some file => if host.ferror file then .errBadFd else .success

/-- The tests in source order. The redundancy is refused by one comparison, so that
neither NaN nor infinity is. -/
def hgapCheckConfigSender (config : HgapConfig) : Hgap :=
  if config.pktSize ≤ hgapHeaderLen then .errMtuTooSmall
  else if config.pktSize > hgapMaxPktSize then .errMtuTooBig
  else if checkAddr host config.addr ≠ .success then checkAddr host config.addr
  else if checkFile host config.inFile ≠ .success then .errBadInFd
  else if config.nPkt.toNat < 1 ∨ config.nPkt.toNat > hgapMaxNPkt then .errBadNPkt
  else if config.redund.lt (.fin 1) then .errBadRedund
  else .success

def hgapCheckConfigReceiver (config : HgapConfig) : Hgap :=
  if checkFile host config.outFile ≠ .success then .errBadOutFd
  else checkAddr host config.addr

/-- What an accepted sender configuration guarantees about the sizes. -/
theorem checkConfigSender_success {config : HgapConfig}
    (accepted : hgapCheckConfigSender host config = .success) :
    hgapHeaderLen < config.pktSize ∧ config.pktSize ≤ hgapMaxPktSize ∧
      1 ≤ config.nPkt.toNat ∧ config.nPkt.toNat ≤ hgapMaxNPkt ∧
      config.redund.lt (.fin 1) = false := by
  unfold hgapCheckConfigSender at accepted
  split at accepted
  · cases accepted
  split at accepted
  · cases accepted
  split at accepted
  next h => exact absurd accepted h
  split at accepted
  · cases accepted
  split at accepted
  · cases accepted
  split at accepted
  · cases accepted
  next hlow hhigh _ _ hn hr =>
    refine ⟨by omega, by omega, ?_, ?_, by simpa using hr⟩
    · omega
    · omega

/-- An accepted sender configuration has an input. -/
theorem checkConfigSender_inFile {config : HgapConfig}
    (accepted : hgapCheckConfigSender host config = .success) : config.inFile.isSome = true := by
  cases given : config.inFile with
  | some file => rfl
  | none =>
    have refused : checkFile host config.inFile ≠ .success := by simp [given, checkFile]
    unfold hgapCheckConfigSender at accepted
    split at accepted
    · cases accepted
    split at accepted
    · cases accepted
    split at accepted
    next h => exact absurd accepted h
    cases accepted

end

/-- Payload octets of a full packet. -/
def HgapConfig.payload (config : HgapConfig) : Nat := config.pktSize - hgapHeaderLen

/-- `buf_size` of `hgap_send`: the octets of a full chunk. -/
def HgapConfig.bufSize (config : HgapConfig) : Nat :=
  config.nPkt.toNat * (config.pktSize - hgapHeaderLen)

/-- An accepted configuration with the smallest sizes: one octet a packet, one packet a
chunk, no redundancy. -/
def HgapConfig.smallest : HgapConfig := ⟨some 0, some 1, 1, 25, .fin 1, some "127.0.0.1", 0⟩

/-- The sizes of an accepted configuration leave no product or difference to wrap. -/
structure HgapConfig.Sound (config : HgapConfig) : Prop where
  payload_pos : 0 < config.payload
  payload_le : config.payload ≤ hgapMaxPktSize - hgapHeaderLen
  nPkt_pos : 1 ≤ config.nPkt.toNat
  nPkt_le : config.nPkt.toNat ≤ hgapMaxNPkt
  redund_ge : config.redund.lt (.fin 1) = false

theorem HgapConfig.sound (host : Host) (config : HgapConfig)
    (accepted : hgapCheckConfigSender host config = .success) : config.Sound := by
  obtain ⟨hlow, hhigh, hpos, hle, hr⟩ := checkConfigSender_success host accepted
  refine ⟨?_, ?_, hpos, hle, hr⟩
  · unfold HgapConfig.payload
    omega
  · unfold HgapConfig.payload
    omega

namespace HgapConfig.Sound
variable {config : HgapConfig} (sound : config.Sound)
include sound

theorem pktSize_eq : config.pktSize = config.payload + hgapHeaderLen := by
  have := sound.payload_pos
  unfold HgapConfig.payload at *
  omega

theorem bufSize_pos : 0 < config.bufSize :=
  Nat.mul_pos sound.nPkt_pos sound.payload_pos

theorem bufSize_le : config.bufSize ≤ hgapMaxNPkt * (hgapMaxPktSize - hgapHeaderLen) :=
  Nat.mul_le_mul sound.nPkt_le sound.payload_le

/-- A full chunk has as many blocks as the configuration says. -/
theorem blockCount_le {len : Nat} (fits : len ≤ config.bufSize) :
    blockCount len config.payload ≤ hgapMaxNPkt := by
  have hpos := sound.payload_pos
  have hle : config.bufSize ≤ hgapMaxNPkt * config.payload :=
    Nat.mul_le_mul_right config.payload sound.nPkt_le
  unfold blockCount
  rw [Nat.div_le_iff_le_mul hpos]
  omega

end HgapConfig.Sound

end Hairgap.Source
