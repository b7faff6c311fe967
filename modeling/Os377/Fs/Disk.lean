import Os377.Lib.CString
import Os377.Lib.TSys

/-!
# The p6 file system

`fs.cpp` on the disk image of `create_fs.cpp`: 128 blocks of 1024 bytes, block
`0` being the super block with the 128-byte free list at byte 0, the 16 inodes
of 48 bytes at byte 128 and 128 bytes of padding at byte 896.

Every operation scans the inode table with the loop
`for (idx = 128; idx < 1024; idx += sizeof(idxNode))`, which visits 19 slots:
slots 16 and 17 lie in the padding, and the last bytes of slot 18 are the
first bytes of block 1.

An access outside `blockPointers`, outside the free list or outside the disk
is a `Fault`; what the program does after one is not modelled.
-/

namespace Os377.Fs

open Os377.Lib Function

/-- The bytes of the disk file. -/
abbrev Disk := Mem

/-- The 48 bytes of a `struct idxNode`. -/
abbrev IdxNode := Mem

/-- `char buf[1024]`. -/
abbrev Buf := Fin 1024 → UInt8

/-- The buffer as a source of bytes. -/
def Buf.toMem (buf : Buf) : Mem := fun i => if h : i < 1024 then buf ⟨i, h⟩ else 0

inductive Fault where
  | inodeBounds
  | listBounds
  | diskBounds
  deriving DecidableEq, Repr

/-- What an operation prints. -/
inductive Message where
  | notEnoughSpace
  | tooManyFiles
  | created (name : CString) (inode : Nat)
  | deletingNotFound
  | deleted (name : CString) (inode : Nat)
  | readingNotFound
  | readBlockNumber
  | readFrom (name : CString) (blockNum : Int)
  | writingNotFound
  | writeBlockNumber
  | writingComplete

/-- The argument of `perror`, or the format of `printf`. -/
def Message.text : Message → String
  | .notEnoughSpace => "not enough space"
  | .tooManyFiles => "maximum number of files reached"
  | .created _ _ => "Created a file %s, at inode %i\n"
  | .deletingNotFound => "deleting file not found"
  | .deleted _ _ => "Deleted a file %s, at inode %i\n"
  | .readingNotFound => "reading file not found"
  | .readBlockNumber => "block number not smaller than inode size"
  | .readFrom _ _ => "Read from file %s at block %i\n"
  | .writingNotFound => "writing file not found"
  | .writeBlockNumber => "block number error"
  | .writingComplete => "writing complete\n"

/-- The disk after an operation, its return value and what it printed. -/
structure Result where
  disk : Disk
  ret : Int
  said : Message

/-- The result of `read`: the disk stays as it is, `buf` is filled on success. -/
structure ReadResult where
  buf : Option Buf
  ret : Int
  said : Message

/-- `create_fs`: the super block marks itself as allocated, the rest is zero. -/
def formatted : Disk := fun a => if a = 0 then 1 else 0

/-- The name `a`, to evaluate sessions with. -/
def sampleName : CString := ⟨[97], by decide⟩

namespace IdxNode

def size (inode : IdxNode) : Int := getInt inode 8

def blockPointer (inode : IdxNode) (i : Nat) : Int := getInt inode (12 + 4 * i)

def used (inode : IdxNode) : Int := getInt inode 44

end IdxNode

/-- The value of `idx` at slot `k`. -/
def slot (k : Nat) : Nat := 128 + 48 * k

/-- Slots with `idx < 1024`. -/
def slotCount : Nat := (1024 - 128 + 47) / 48

/-- `disk.read((char *)&inode, sizeof(idxNode))` at slot `k`. -/
def inode (d : Disk) (k : Nat) : IdxNode := slice d (slot k)

/-- The scan of the inode table for the first slot that `p` accepts. -/
def scan (d : Disk) (p : IdxNode → Bool) : Option Nat :=
  (List.range slotCount).find? fun k => p (inode d k)

/-- `blocked`: the sum of the free list, as signed characters. -/
def blocked (super : Mem) : Int := ((List.range 128).map fun i => (super i).toInt8.toInt).sum

/-- One round of the allocation loop: give block `j`, the first free one, to
`blockPointers[i]`. Without a free block the round does nothing. -/
def allocStep (s : Mem × IdxNode) (i : Nat) : Except Fault (Mem × IdxNode) :=
  match (List.range 128).find? fun j => s.1 j == 0 with
  | none => .ok s
  | some j =>
      if i < 8 then .ok (update s.1 j 1, putInt s.2 (12 + 4 * i) j)
      else .error .inodeBounds

/-- Write out the free list and the inode of slot `k`. -/
def writeBack (d : Disk) (super : Mem) (k : Nat) (node : IdxNode) : Disk :=
  splice (splice d 0 128 super) (slot k) 48 node

/-- `create_file(name, size)`. -/
def createFile (d : Disk) (name : CString) (size : Int) : Except Fault Result :=
  if 128 - blocked d < size then .ok ⟨d, -1, .notEnoughSpace⟩
  else
    match scan d fun n => n.used == 0 with
    | none => .ok ⟨d, -1, .tooManyFiles⟩
    | some k =>
        if k ≥ 16 then .ok ⟨d, -1, .tooManyFiles⟩
        else
          let node := putInt (strncpy (putInt (inode d k) 44 1) 0 8 name.bytes) 8 size
          match (List.range size.toNat).foldlM allocStep (d, node) with
          | .error e => .error e
          | .ok (super, node) =>
              .ok ⟨writeBack d super k node, 1, .created name k⟩

/-- One round of the loop that frees the blocks of a file. -/
def freeStep (node : IdxNode) (list : Mem) (i : Nat) : Except Fault Mem :=
  if i < 8 then
    let p := node.blockPointer i
    if 0 ≤ p ∧ p < 128 then .ok (update list p.toNat 0) else .error .listBounds
  else .error .inodeBounds

/-- `delete_file(name)`. -/
def deleteFile (d : Disk) (name : CString) : Except Fault Result :=
  match scan d fun n => n.used == 1 && strncmpEq n 0 8 name.bytes with
  | none => .ok ⟨d, -1, .deletingNotFound⟩
  | some k =>
      let node := inode d k
      match (List.range node.size.toNat).foldlM (freeStep node) d with
      | .error e => .error e
      | .ok list =>
          .ok ⟨writeBack d list k (putInt node 44 0), 1, .deleted name k⟩

/-- `ls()`: the name (up to its NUL) and the size of each used inode. -/
def ls (d : Disk) : List (List UInt8 × Int) :=
  ((List.range 16).filter fun k => (inode d k).used == 1).map fun k =>
    (((List.range 48).map (inode d k)).takeWhile (· != 0), (inode d k).size)

/-- The disk address `blockPointers[blockNum] * 1024`. -/
def blockAddr (node : IdxNode) (blockNum : Int) : Except Fault Nat :=
  if 0 ≤ blockNum ∧ blockNum < 8 then
    let addr := node.blockPointer blockNum.toNat
    if 0 ≤ addr ∧ addr < 128 then .ok (addr.toNat * 1024) else .error .diskBounds
  else .error .inodeBounds

/-- `read(name, blockNum, buf)`. -/
def read (d : Disk) (name : CString) (blockNum : Int) : Except Fault ReadResult :=
  match scan d fun n => n.used == 1 && strcmpEq n 0 name.bytes with
  | none => .ok ⟨none, -1, .readingNotFound⟩
  | some k =>
      if blockNum ≥ (inode d k).size then .ok ⟨none, -1, .readBlockNumber⟩
      else
        match blockAddr (inode d k) blockNum with
        | .error e => .error e
        | .ok a => .ok ⟨some fun i => d (a + i), 1, .readFrom name blockNum⟩

/-- `write(name, blockNum, buf)`; it returns 0 when it has written. -/
def write (d : Disk) (name : CString) (blockNum : Int) (buf : Buf) : Except Fault Result :=
  match scan d fun n => n.used == 1 && strcmpEq n 0 name.bytes with
  | none => .ok ⟨d, -1, .writingNotFound⟩
  | some k =>
      if blockNum ≥ (inode d k).size then .ok ⟨d, -1, .writeBlockNumber⟩
      else
        match blockAddr (inode d k) blockNum with
        | .error e => .error e
        | .ok a => .ok ⟨splice d a 1024 buf.toMem, 0, .writingComplete⟩

/-- The calls of a session. -/
inductive Op where
  | createFile (name : CString) (size : Int)
  | deleteFile (name : CString)
  | read (name : CString) (blockNum : Int)
  | write (name : CString) (blockNum : Int) (buf : Buf)
  | ls

/-- The disk after a call. -/
def exec (d : Disk) : Op → Except Fault Disk
  | .createFile name size => (createFile d name size).map (·.disk)
  | .deleteFile name => (deleteFile d name).map (·.disk)
  | .read name blockNum => (read d name blockNum).map fun _ => d
  | .write name blockNum buf => (write d name blockNum buf).map (·.disk)
  | .ls => .ok d

/-- Sessions on a freshly formatted disk. -/
def sessions : TSys Disk Op where
  init d := d = formatted
  next d op := (exec d op).toOption

end Os377.Fs
