import ReduceOS.Halting
import ReduceOS.Kopen
import ReduceOS.Numerals
import ReduceOS.Ramdev

/-!
The USTAR filesystem of fs/tarfs.c, on a ramdev. A header is read into memory of its own, and its
fields are taken as strings wherever these end: in the field, in one behind it, or in what is in
memory behind the header. The loops over the members of an archive are machines on the offset of
the header.
-/
namespace ReduceOS.Ustar

open Machine CString Numerals Ramdev Halting
open MountTree (slash vfsDirectory)
open Kopen (vfsFile)

def vfsChardevice : BitVec 64 := 0x04

def vfsBlockdevice : BitVec 64 := 0x08

def vfsPipe : BitVec 64 := 0x10

def vfsSymlink : BitVec 64 := 0x20

/-- An archive: memory and the device in it, where headers are allocated, and what is in memory
behind the header that is read from an offset. -/
structure Archive where
  memory : Addr → BitVec 8
  dev : Device
  buffer : Addr
  beyond : BitVec 64 → Chars
  allocated : buffer ≠ null

/-- What `tarfs_ustarToNode` sets of an `fs_node_t`. -/
structure TarNode where
  name : Chars
  flags : BitVec 64
  length : BitVec 64
  gid : CInt
  uid : CInt
  mask : CInt
  inode : BitVec 64

structure Dirent where
  ino : BitVec 32
  name : Chars

inductive Entry
  | found (entry : Dirent)
  | null
  /-- It writes outside of its buffer, takes the last part of a path that has none, or its `int`
  overflows. -/
  | undefined

section Source

def magic : Chars := [117, 115, 116, 97, 114]

def headerSize : ℕ := 500

def Archive.bytes (a : Archive) (copied : Memcpy) : Chars :=
  (List.range copied.size.toNat).map fun i => a.memory (copied.src + BitVec.ofNat 64 i)

/-- `tarfs_getUstar`: the header, and what is behind it in memory. -/
def tarfsGetUstar (a : Archive) (inode : BitVec 64) : Option Chars :=
  let (count, copied) := ramdevRead a.dev inode (BitVec.ofNat 64 headerSize) a.buffer
  if count = 0 then none
  else
    let bytes := copied.toList.flatMap a.bytes
    let header := bytes ++ List.replicate (headerSize - bytes.length) 0
    if strncmp (header.drop 257) magic 5 = 0 then some (header ++ a.beyond inode) else none

def name (header : Chars) : Chars := cstring header
def mode (header : Chars) : Chars := header.drop 100
def uid (header : Chars) : Chars := header.drop 108
def gid (header : Chars) : Chars := header.drop 116
def size (header : Chars) : Chars := header.drop 124
def type (header : Chars) : BitVec 8 := deref (header.drop 156)
def namePrefix (header : Chars) : Chars := cstring (header.drop 345)

def ustarDirectory : BitVec 8 := 53

/-- The flags for the types from `USTAR_HARD_LINK` to `USTAR_PIPE`, and for all others. -/
def typeFlags (type : BitVec 8) : BitVec 64 :=
  if type = 49 then vfsFile
  else if type = 50 then vfsSymlink
  else if type = 51 then vfsChardevice
  else if type = 52 then vfsBlockdevice
  else if type = ustarDirectory then vfsDirectory
  else if type = 54 then vfsPipe
  else vfsFile

def tarfsUstarToNode (header : Chars) (inode : BitVec 64) : TarNode where
  name := snprintf 255 (namePrefix header) (name header)
  flags := typeFlags (type header)
  length := strtoull (size header) 8
  gid := (strtol (gid header) 10).setWidth 32
  uid := (strtol (uid header) 10).setWidth 32
  mask := (strtol (mode header) 10).setWidth 32
  inode := inode

def ustarSize (size : BitVec 64) : BitVec 64 :=
  if size % 512 ≠ 0 then size + (512 - size % 512) else size

def nextIno (header : Chars) (ino : BitVec 64) : BitVec 64 :=
  ino + 512 + ustarSize (strtoull (size header) 8)

/-- The string is in a buffer of 256 bytes, with its terminator. -/
def Fits (str : Chars) : Prop := str.length < 256

instance (str : Chars) : Decidable (Fits str) := inferInstanceAs (Decidable (str.length < 256))

def searchDirectory (header : Chars) : Chars :=
  if strcmp (name header) [slash] ≠ 0 then
    strncat (strncat [] (namePrefix header) 155) (name header) 100
  else []

/-- The name of a header without a slash at its end. For an empty one the byte in front of the
buffer is read, which makes no difference. -/
def stripSlash (filename : Chars) : Chars :=
  if filename.getLast? = some slash ∧ filename.length > 1 then filename.dropLast else filename

def filename (header : Chars) : Chars := stripSlash (snprintf 256 (namePrefix header) (name header))

def finddirStep (a : Archive) (search : Chars) (ino : BitVec 64) : BitVec 64 :=
  match tarfsGetUstar a ino with
  | none => ino
  | some header => if strcmp (filename header) search = 0 then ino else nextIno header ino

def finddirResult (a : Archive) (search : Chars) (ino : BitVec 64) : Option (Option TarNode) :=
  match tarfsGetUstar a ino with
  | none => some none
  | some header =>
    if strcmp (filename header) search = 0 then some (some (tarfsUstarToNode header ino)) else none

/-- `tarfs_finddir` of a node with an inode returns a node, or `NULL`. -/
def TarfsFinddir (a : Archive) (inode : BitVec 64) (path : Chars) (result : Option TarNode) :
    Prop :=
  match tarfsGetUstar a inode with
  | none => result = none
  | some header =>
    if type header ≠ ustarDirectory then result = none
    else
      Fits (searchDirectory header ++ path) ∧
        Returns (finddirStep a (searchDirectory header ++ path))
          (finddirResult a (searchDirectory header ++ path)) inode result

structure ReadState where
  ino : BitVec 64
  fileidx : ℕ

def pathFilename (header : Chars) : Chars :=
  strncat (strncat [] (namePrefix header) 155) (name header) 150

def Listed (search path : Chars) : Prop :=
  if search.count slash = 0 then strchr path slash = none else strstr path search = some path

instance (search path : Chars) : Decidable (Listed search path) :=
  inferInstanceAs (Decidable (if search.count slash = 0 then strchr path slash = none
    else strstr path search = some path))

def entryName (search path : Chars) : Option Chars :=
  if path = [] then none
  else
    let path := if path.getLast? = some slash then path.dropLast else path
    if search.count slash = 0 then some path else (strrchr path slash).map List.tail

def readdirStep (a : Archive) (search : Chars) (index : CInt) (s : ReadState) : ReadState :=
  match tarfsGetUstar a s.ino with
  | none => s
  | some header =>
    if s.fileidx = 0 then ⟨nextIno header s.ino, 1⟩
    else if ¬ Fits (pathFilename header) then s
    else if Listed search (pathFilename header) then
      if BitVec.ofNat 32 s.fileidx = index ∨ s.fileidx + 1 = 2 ^ 31 then s
      else ⟨nextIno header s.ino, s.fileidx + 1⟩
    else ⟨nextIno header s.ino, s.fileidx⟩

def readdirResult (a : Archive) (search : Chars) (index : CInt) (s : ReadState) : Option Entry :=
  match tarfsGetUstar a s.ino with
  | none => some .null
  | some header =>
    if s.fileidx = 0 then none
    else if ¬ Fits (pathFilename header) then some .undefined
    else if Listed search (pathFilename header) then
      if BitVec.ofNat 32 s.fileidx = index then
        match entryName search (pathFilename header) with
        | none => some .undefined
        | some name => some (.found ⟨s.ino.setWidth 32, name⟩)
      else if s.fileidx + 1 = 2 ^ 31 then some .undefined
      else none
    else none

def TarfsReaddir (a : Archive) (inode index : BitVec 64) (entry : Entry) : Prop :=
  if index < 2 then entry = .found ⟨0, if index = 0 then [46] else [46, 46]⟩
  else
    match tarfsGetUstar a inode with
    | none => entry = .null
    | some header =>
      Returns (readdirStep a (searchDirectory header) ((index - 1).setWidth 32))
        (readdirResult a (searchDirectory header) ((index - 1).setWidth 32)) ⟨inode, 0⟩ entry

/-- The device of the archive at the offset of a file in it, once its header has been seen. -/
def tarfsRead (a : Archive) (node : TarNode) (offset size : BitVec 64) (buffer : Addr) :
    BitVec 64 × Option Memcpy :=
  if node.flags ≠ vfsFile then (0, none)
  else if offset > node.length then (0, none)
  else
    let size := clampSize node.length offset size
    match tarfsGetUstar a node.inode with
    | none => (0, none)
    | some _ =>
      let readOffset := node.inode + 512 + offset
      ramdevRead a.dev readOffset size buffer

end Source

section Sample

def pad (n : ℕ) (str : Chars) : Chars := str ++ List.replicate (n - str.length) 0

def block (name size : Chars) (type : BitVec 8) : Chars :=
  pad 512 (pad 156 (pad 124 name ++ size) ++ type :: (List.replicate 100 0 ++ magic))

def archiveOf (content : Chars) : Archive where
  memory a := content.getD a.toNat 0
  dev := ⟨BitVec.ofNat 64 content.length, 0⟩
  buffer := 1
  beyond _ := []
  allocated := by decide

end Sample

end ReduceOS.Ustar
