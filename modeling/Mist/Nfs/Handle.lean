import Mist.Nfs.Xdr
import Mist.Proto

/-! File handles: the share and the node, with a keyed MAC over both. -/

namespace Mist.Nfs

def be16 (v : UInt16) : List UInt8 := [.ofNat (v.toNat / 256), .ofNat v.toNat]

def fromBe16 : List UInt8 → UInt16
  | [a, b] => .ofNat (a.toNat * 256 + b.toNat)
  | _ => 0

theorem fromBe16_be16 (v : UInt16) : fromBe16 (be16 v) = v := by
  have hv := v.toNat_lt
  apply UInt16.toNat_inj.mp
  simp only [fromBe16, be16, UInt8.toNat_ofNat', UInt16.toNat_ofNat']
  omega

/-- `MST1`. -/
def MAGIC : List UInt8 := [77, 83, 84, 49]

def HANDLE_LEN : Nat := 28

/-- The codec of one secret.  `mac` is the keyed hash of magic, share, flags and node, cut to eight
bytes. -/
structure HandleCodec where
  mac : (share flags : UInt16) → NodeKey → UInt64

namespace HandleCodec

def encode (c : HandleCodec) (share : UInt16) (node : NodeKey) : List UInt8 :=
  MAGIC ++ be16 share ++ be16 0 ++ be64 node.ino ++ be32 node.generation ++ be64 (c.mac share 0 node)

def decode (c : HandleCodec) (fh : List UInt8) : Option (UInt16 × NodeKey) :=
  if fh.length ≠ HANDLE_LEN || fh.take 4 ≠ MAGIC then none
  else
    let share := fromBe16 ((fh.drop 4).take 2)
    let flags := fromBe16 ((fh.drop 6).take 2)
    let node : NodeKey := ⟨fromBe64 ((fh.drop 8).take 8), fromBe32 ((fh.drop 16).take 4)⟩
    if fromBe64 ((fh.drop 20).take 8) ≠ c.mac share flags node then none else some (share, node)

theorem length_encode (c : HandleCodec) (share : UInt16) (node : NodeKey) :
    (c.encode share node).length = HANDLE_LEN := rfl

theorem decode_encode (c : HandleCodec) (share : UInt16) (node : NodeKey) :
    c.decode (c.encode share node) = some (share, node) := by
  have hshare : fromBe16 (((c.encode share node).drop 4).take 2) = share := fromBe16_be16 share
  have hflags : fromBe16 (((c.encode share node).drop 6).take 2) = 0 := rfl
  have hino : fromBe64 (((c.encode share node).drop 8).take 8) = node.ino := fromBe64_be64 node.ino
  have hgen : fromBe32 (((c.encode share node).drop 16).take 4) = node.generation :=
    fromBe32_be32 node.generation
  have hmac : fromBe64 (((c.encode share node).drop 20).take 8) = c.mac share 0 node :=
    fromBe64_be64 _
  have hmagic : (c.encode share node).take 4 = MAGIC := rfl
  simp [decode, length_encode, hmagic, hshare, hflags, hino, hgen, hmac]

end HandleCodec

end Mist.Nfs
