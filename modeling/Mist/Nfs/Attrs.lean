import Mist.Nfs.Surface

/-! NFSv4 attributes: bitmaps of attribute numbers, the values of the attributes that are served,
and the ones a client may set. -/

namespace Mist.Nfs

def A_SUPPORTED_ATTRS : Nat := 0
def A_TYPE : Nat := 1
def A_FH_EXPIRE_TYPE : Nat := 2
def A_CHANGE : Nat := 3
def A_SIZE : Nat := 4
def A_LINK_SUPPORT : Nat := 5
def A_SYMLINK_SUPPORT : Nat := 6
def A_NAMED_ATTR : Nat := 7
def A_FSID : Nat := 8
def A_UNIQUE_HANDLES : Nat := 9
def A_LEASE_TIME : Nat := 10
def A_RDATTR_ERROR : Nat := 11
def A_ACLSUPPORT : Nat := 13
def A_CANSETTIME : Nat := 15
def A_CASE_INSENSITIVE : Nat := 16
def A_CASE_PRESERVING : Nat := 17
def A_CHOWN_RESTRICTED : Nat := 18
def A_FILEHANDLE : Nat := 19
def A_FILEID : Nat := 20
def A_FILES_AVAIL : Nat := 21
def A_FILES_FREE : Nat := 22
def A_FILES_TOTAL : Nat := 23
def A_MAXFILESIZE : Nat := 27
def A_MAXLINK : Nat := 28
def A_MAXNAME : Nat := 29
def A_MAXREAD : Nat := 30
def A_MAXWRITE : Nat := 31
def A_MODE : Nat := 33
def A_NO_TRUNC : Nat := 34
def A_NUMLINKS : Nat := 35
def A_OWNER : Nat := 36
def A_OWNER_GROUP : Nat := 37
def A_RAWDEV : Nat := 41
def A_SPACE_AVAIL : Nat := 42
def A_SPACE_FREE : Nat := 43
def A_SPACE_TOTAL : Nat := 44
def A_SPACE_USED : Nat := 45
def A_TIME_ACCESS : Nat := 47
def A_TIME_ACCESS_SET : Nat := 48
def A_TIME_DELTA : Nat := 51
def A_TIME_METADATA : Nat := 52
def A_TIME_MODIFY : Nat := 53
def A_TIME_MODIFY_SET : Nat := 54
def A_MOUNTED_ON_FILEID : Nat := 55
def A_SUPPATTR_EXCLCREAT : Nat := 75

def SUPPORTED : List Nat :=
  [A_SUPPORTED_ATTRS, A_TYPE, A_FH_EXPIRE_TYPE, A_CHANGE, A_SIZE, A_LINK_SUPPORT, A_SYMLINK_SUPPORT,
    A_NAMED_ATTR, A_FSID, A_UNIQUE_HANDLES, A_LEASE_TIME, A_RDATTR_ERROR, A_ACLSUPPORT, A_CANSETTIME,
    A_CASE_INSENSITIVE, A_CASE_PRESERVING, A_CHOWN_RESTRICTED, A_FILEHANDLE, A_FILEID, A_FILES_AVAIL,
    A_FILES_FREE, A_FILES_TOTAL, A_MAXFILESIZE, A_MAXLINK, A_MAXNAME, A_MAXREAD, A_MAXWRITE, A_MODE,
    A_NO_TRUNC, A_NUMLINKS, A_OWNER, A_OWNER_GROUP, A_RAWDEV, A_SPACE_AVAIL, A_SPACE_FREE,
    A_SPACE_TOTAL, A_SPACE_USED, A_TIME_ACCESS, A_TIME_DELTA, A_TIME_METADATA, A_TIME_MODIFY,
    A_MOUNTED_ON_FILEID, A_SUPPATTR_EXCLCREAT]

def SETTABLE : List Nat :=
  [A_SIZE, A_MODE, A_OWNER, A_OWNER_GROUP, A_TIME_ACCESS_SET, A_TIME_MODIFY_SET]

def LEASE_TIME : UInt32 := 90

structure Bitmap where
  w0 : UInt32
  w1 : UInt32
  w2 : UInt32

namespace Bitmap

def default : Bitmap := ⟨0, 0, 0⟩

def bit (attr : Nat) : UInt32 := 1 <<< UInt32.ofNat (attr % 32)

def set (b : Bitmap) (attr : Nat) : Bitmap :=
  if attr / 32 = 0 then { b with w0 := b.w0 ||| bit attr }
  else if attr / 32 = 1 then { b with w1 := b.w1 ||| bit attr }
  else if attr / 32 = 2 then { b with w2 := b.w2 ||| bit attr }
  else b

def has (b : Bitmap) (attr : Nat) : Bool :=
  if attr / 32 = 0 then b.w0 &&& bit attr ≠ 0
  else if attr / 32 = 1 then b.w1 &&& bit attr ≠ 0
  else if attr / 32 = 2 then b.w2 &&& bit attr ≠ 0
  else false

def fromAttrs (attrs : List Nat) : Bitmap := attrs.foldl set default

def intersect (b c : Bitmap) : Bitmap := ⟨b.w0 &&& c.w0, b.w1 &&& c.w1, b.w2 &&& c.w2⟩

def encode (b : Bitmap) : List XdrItem :=
  if b.w2 ≠ 0 then [.u32 3, .u32 b.w0, .u32 b.w1, .u32 b.w2]
  else if b.w1 ≠ 0 then [.u32 2, .u32 b.w0, .u32 b.w1]
  else [.u32 1, .u32 b.w0]

def readWords : Nat → XdrReader → Option (List UInt32 × XdrReader)
  | 0, r => some ([], r)
  | n + 1, r => do
    let (v, r) ← r.u32
    let (vs, r) ← readWords n r
    return (v :: vs, r)

/-- Words past the third are read and dropped. -/
def decode (r : XdrReader) : Option (Bitmap × XdrReader) := do
  let (n, r) ← r.u32
  if n.toNat > 16 then none
  else
    let (ws, r) ← readWords n.toNat r
    return (⟨ws[0]?.getD 0, ws[1]?.getD 0, ws[2]?.getD 0⟩, r)

def attrs (b : Bitmap) : List Nat := (List.range 96).filter b.has

end Bitmap

/-- The change attribute mixes both times and the size. -/
def changeOf (a : Attr) : UInt64 :=
  [a.mtime.sec.toUInt64, a.mtime.nsec.toUInt64, a.ctime.sec.toUInt64, a.ctime.nsec.toUInt64,
    a.size].foldl (fun h v => (h ^^^ v) * 0x100000001b3) 0xcbf29ce484222325

def typeOf : Kind → UInt32
  | .reg => 1
  | .dir => 2
  | .blk => 3
  | .chr => 4
  | .symlink => 5
  | .sock => 6
  | .fifo => 7

def time4 (t : Ts) : List XdrItem := [.u64 t.sec.toUInt64, .u32 t.nsec]

def decimal (v : UInt32) : List UInt8 := (Nat.toDigits 10 v.toNat).map fun c => .ofNat c.toNat

def encodeOne (a : Nat) (attr : Attr) (fileid : UInt64) (share : UInt16) (fh : Option (List UInt8))
    (fs : FsStat) : List XdrItem :=
  if a = A_SUPPORTED_ATTRS then (Bitmap.fromAttrs SUPPORTED).encode
  else if a = A_TYPE then [.u32 (typeOf attr.kind)]
  else if a = A_FH_EXPIRE_TYPE then [.u32 0]
  else if a = A_CHANGE then [.u64 (changeOf attr)]
  else if a = A_SIZE then [.u64 attr.size]
  else if a = A_LINK_SUPPORT || a = A_SYMLINK_SUPPORT then [.bool true]
  else if a = A_NAMED_ATTR then [.bool false]
  else if a = A_FSID then [.u64 (0x4D535400 ||| share.toUInt64), .u64 0]
  else if a = A_UNIQUE_HANDLES then [.bool false]
  else if a = A_LEASE_TIME then [.u32 LEASE_TIME]
  else if a = A_RDATTR_ERROR || a = A_ACLSUPPORT then [.u32 0]
  else if a = A_CANSETTIME then [.bool true]
  else if a = A_CASE_INSENSITIVE then [.bool false]
  else if a = A_CASE_PRESERVING || a = A_CHOWN_RESTRICTED then [.bool true]
  else if a = A_FILEHANDLE then [.opaqueData (fh.getD [])]
  else if a = A_FILEID then [.u64 fileid]
  else if a = A_FILES_AVAIL || a = A_FILES_FREE then [.u64 fs.freeFiles]
  else if a = A_FILES_TOTAL then [.u64 fs.totalFiles]
  else if a = A_MAXFILESIZE then [.u64 (u64Max >>> 1)]
  else if a = A_MAXLINK then [.u32 32000]
  else if a = A_MAXNAME then [.u32 255]
  else if a = A_MAXREAD || a = A_MAXWRITE then [.u64 1048576]
  else if a = A_MODE then [.u32 (attr.mode.toUInt32 &&& 0xfff)]
  else if a = A_NO_TRUNC then [.bool true]
  else if a = A_NUMLINKS then [.u32 attr.nlink]
  else if a = A_OWNER then [.opaqueData (decimal attr.uid)]
  else if a = A_OWNER_GROUP then [.opaqueData (decimal attr.gid)]
  else if a = A_RAWDEV then [.u32 (attr.rdev >>> 32).toUInt32, .u32 attr.rdev.toUInt32]
  else if a = A_SPACE_AVAIL then [.u64 fs.availBytes]
  else if a = A_SPACE_FREE then [.u64 fs.freeBytes]
  else if a = A_SPACE_TOTAL then [.u64 fs.totalBytes]
  else if a = A_SPACE_USED then [.u64 (attr.blocks * 512)]
  else if a = A_TIME_ACCESS then time4 attr.mtime
  else if a = A_TIME_DELTA then [.u64 0, .u32 1]
  else if a = A_TIME_METADATA then time4 attr.ctime
  else if a = A_TIME_MODIFY then time4 attr.mtime
  else if a = A_MOUNTED_ON_FILEID then [.u64 fileid]
  else if a = A_SUPPATTR_EXCLCREAT then (Bitmap.fromAttrs SETTABLE).encode
  else []

/-- The attributes that are given, and their values as one opaque. -/
def encodeFattr4 (requested : Bitmap) (attr : Attr) (fileid : UInt64) (share : UInt16)
    (fh : Option (List UInt8)) (fs : FsStat) : List XdrItem :=
  let giving := requested.intersect (.fromAttrs SUPPORTED)
  let giving := if giving.has A_FILEHANDLE && fh.isNone then
      { giving with w0 := giving.w0 &&& ~~~(Bitmap.bit A_FILEHANDLE) }
    else giving
  giving.encode ++ [.opaqueData ((giving.attrs.flatMap fun a =>
    encodeOne a attr fileid share fh fs).flatMap XdrItem.bytes)]

def parseU32 (s : List UInt8) : Option UInt32 :=
  let digits := if s.head? = some 43 then s.tail else s
  if digits.isEmpty || digits.any (fun d => d < 48 || 57 < d) then none
  else
    let v := digits.foldl (fun v d => v * 10 + (d.toNat - 48)) 0
    if v < 4294967296 then some (.ofNat v) else none

/-- Read the value of one attribute that may be set; `now` is the server's clock. -/
def decodeOne (now : Ts) (a : Nat) (out : NfsSetAttr) (r : XdrReader) :
    Option (NfsSetAttr × XdrReader) :=
  if a = A_SIZE then do
    let (v, r) ← r.u64
    return ({ out with size := some v }, r)
  else if a = A_MODE then do
    let (v, r) ← r.u32
    return ({ out with mode := some (v &&& 0xfff).toUInt16 }, r)
  else if a = A_OWNER then do
    let (s, r) ← r.opaqueData 256
    return ({ out with uid := parseU32 s }, r)
  else if a = A_OWNER_GROUP then do
    let (s, r) ← r.opaqueData 256
    return ({ out with gid := parseU32 s }, r)
  else if a = A_TIME_ACCESS_SET then do
    let (how, r) ← r.u32
    if how = 1 then
      let (_, r) ← r.u64
      let (_, r) ← r.u32
      return (out, r)
    else return (out, r)
  else if a = A_TIME_MODIFY_SET then do
    let (how, r) ← r.u32
    if how = 1 then
      let (sec, r) ← r.u64
      let (nsec, r) ← r.u32
      return ({ out with mtime := some ⟨sec.toInt64, nsec⟩ }, r)
    else return ({ out with mtime := some now }, r)
  else none

def decodeAll (now : Ts) : List Nat → NfsSetAttr → XdrReader → Option NfsSetAttr
  | [], out, _ => some out
  | a :: as, out, r => do
    let (out, r) ← decodeOne now a out r
    decodeAll now as out r

def decodeSettable (now : Ts) (r : XdrReader) : Option ((NfsSetAttr × Bitmap) × XdrReader) := do
  let (bm, r) ← Bitmap.decode r
  let (vals, r) ← r.opaqueData 65536
  let out ← decodeAll now bm.attrs ⟨none, none, none, none, none⟩ ⟨vals⟩
  return ((out, bm), r)

end Mist.Nfs
