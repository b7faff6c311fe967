import Os377.Xv6.Blocks

/-!
# The inodes of the xv6 file system

The functions of `fs.c` between the blocks and the directories: the inodes on the disk
(`ialloc`, `iupdate`), their blocks (`bmap`, `itrunc`), the content of files (`readi`,
`writei`) and the cache of inodes in memory (`iget`, `idup`, `ilock`, `iput`). A call
that panics is an error with the text of the panic.

The calls of the processes come one after the other; the sleeping locks of the inodes
and the spin lock of the cache are free between calls. Also `iput`, which looks at `ref` and
lets go of it in two regions under the lock of the cache, has nothing between them here.
A `short` is its 16 bits.
-/

namespace Os377.Xv6.Filesys

open Os377.Lib Function

def ndirect : Nat := 12

def nindirect : Nat := bsize / 4

def maxfile : Nat := ndirect + nindirect

/-- `NINODE` of `param.h`. -/
def ninode : Nat := 50

/-- `NDEV` of `param.h`. -/
def ndev : Nat := 10

/-- `T_DEV` of `stat.h`. -/
def tDev : Nat := 3

/-- The fields of an inode that are on the disk too. -/
structure Dinode where
  type : Nat
  major : Nat
  minor : Nat
  nlink : Nat
  size : Nat
  addrs : Nat → Nat

/-- The `struct dinode` at `a`. -/
def loadDinode (m : Mem) (a : Nat) : Dinode where
  type := getLe m a 2
  major := getLe m (a + 2) 2
  minor := getLe m (a + 4) 2
  nlink := getLe m (a + 6) 2
  size := getLe m (a + 8) 4
  addrs k := if k ≤ ndirect then getLe m (a + 12 + 4 * k) 4 else 0

/-- The first `n` addresses, stored from `a` on. -/
def storeAddrs (m : Mem) (a : Nat) (addrs : Nat → Nat) : Nat → Mem
  | 0 => m
  | k + 1 => putLe (storeAddrs m a addrs k) (a + 4 * k) 4 (addrs k)

/-- The assignments of `iupdate` to the `struct dinode` at `a`. -/
def storeDinode (m : Mem) (a : Nat) (ip : Dinode) : Mem :=
  let m := putLe m a 2 ip.type
  let m := putLe m (a + 2) 2 ip.major
  let m := putLe m (a + 4) 2 ip.minor
  let m := putLe m (a + 6) 2 ip.nlink
  let m := putLe m (a + 8) 4 ip.size
  storeAddrs m (a + 12) ip.addrs (ndirect + 1)

variable (sb : Superblock)

/-- `IBLOCK` -/
def iblock (inum : Nat) : Nat := inum / ipb + sb.inodestart

/-- Where an inode is in its block. -/
def ioffset (inum : Nat) : Nat := inum % ipb * 64

/-- The inode `inum` as it is on the disk. -/
def dinode (d : Disk) (inum : Nat) : Dinode := loadDinode (d.data (iblock sb inum)) (ioffset inum)

/-- Copy a modified in-memory inode to disk. -/
def iupdate (d : Disk) (inum : Nat) (ip : Dinode) : Disk :=
  d.logWrite (iblock sb inum) (storeDinode (d.data (iblock sb inum)) (ioffset inum) ip)

/-- The `n`th entry of an indirect block. -/
def entry (m : Mem) (n : Nat) : Nat := getLe m (4 * n) 4

def Dinode.setAddr (ip : Dinode) (k addr : Nat) : Dinode :=
  { ip with addrs := update ip.addrs k addr }

/-- `bmap` with the indirect block loaded: the entry `bn` there. -/
def bmapEntry (ip : Dinode) (bn : Nat) (d : Disk) : Except String (Nat × Dinode × Disk) :=
  let bp := ip.addrs ndirect
  if entry (d.data bp) bn = 0 then do
    let (addr, d) ← balloc sb d
    .ok (addr, ip, d.logWrite bp (putLe (d.data bp) (4 * bn) 4 addr))
  else .ok (entry (d.data bp) bn, ip, d)

/-- The disk block address of the `bn`th block in inode `ip`. -/
def bmap (ip : Dinode) (bn : Nat) (d : Disk) : Except String (Nat × Dinode × Disk) :=
  if bn < ndirect then
    if ip.addrs bn = 0 then do
      let (addr, d) ← balloc sb d
      .ok (addr, ip.setAddr bn addr, d)
    else .ok (ip.addrs bn, ip, d)
  else if bn - ndirect < nindirect then
    -- Load indirect block, allocating if necessary.
    if ip.addrs ndirect = 0 then do
      let (addr, d) ← balloc sb d
      bmapEntry sb (ip.setAddr ndirect addr) (bn - ndirect) d
    else bmapEntry sb ip (bn - ndirect) d
  else .error "bmap: out of range"

/-- The two loops of `itrunc`: free every block that an entry names. -/
def bfreeEach (entry : Disk → Nat → Nat) : List Nat → Disk → Except String Disk
  | [], d => .ok d
  | j :: js, d => do
      let d ← if entry d j = 0 then .ok d else bfree sb d (entry d j)
      bfreeEach entry js d

/-- The second part of `itrunc`: the indirect block `bp`, if there is one. -/
def bfreeIndirect (bp : Nat) (d : Disk) : Except String Disk :=
  if bp = 0 then .ok d
  else do
    let d ← bfreeEach sb (fun d j => entry (d.data bp) j) (List.range nindirect) d
    bfree sb d bp

/-- Truncate inode (discard contents). -/
def itrunc (inum : Nat) (ip : Dinode) (d : Disk) : Except String (Dinode × Disk) := do
  let d ← bfreeEach sb (fun _ i => ip.addrs i) (List.range ndirect) d
  let d ← bfreeIndirect sb (ip.addrs ndirect) d
  let ip := { ip with addrs := fun k => if k ≤ ndirect then 0 else ip.addrs k, size := 0 }
  .ok (ip, iupdate sb d inum ip)

/-! ## The content of files -/

/-- The functions of a device in `devsw`: what a read of some bytes returns and puts into
the buffer, what a write of bytes returns. -/
structure Device where
  read : Option (Nat → Int × List UInt8)
  write : Option (List UInt8 → Int)

/-- The loop of `readi`, at most `fuel` times round: the bytes copied to `dst`. -/
def readLoop : Nat → Dinode → Nat → Nat → Disk → Except String (List UInt8 × Dinode × Disk)
  | 0, ip, _, _, d => .ok ([], ip, d)
  | fuel + 1, ip, off, n, d =>
      if n = 0 then .ok ([], ip, d)
      else do
        let (bp, ip, d) ← bmap sb ip (off / bsize) d
        let m := min n (bsize - off % bsize)
        let chunk := (List.range m).map fun i => d.data bp (off % bsize + i)
        let (rest, ip, d) ← readLoop fuel ip (off + m) (n - m) d
        .ok (chunk ++ rest, ip, d)

/-- Read data from inode: what is returned and what is copied to `dst`. -/
def readi (devsw : Nat → Device) (ip : Dinode) (off n : Nat) (d : Disk) :
    Except String ((Int × List UInt8) × Dinode × Disk) :=
  if ip.type = tDev then
    -- A negative `short` is one from `2 ^ 15` on.
    if 2 ^ 15 ≤ ip.major ∨ ndev ≤ ip.major then .ok ((-1, []), ip, d)
    else match (devsw ip.major).read with
      | none => .ok ((-1, []), ip, d)
      | some read => .ok (read n, ip, d)
  else if ip.size < off ∨ (off + n) % 2 ^ 32 < off then .ok ((-1, []), ip, d)
  else do
    let n := if ip.size < (off + n) % 2 ^ 32 then ip.size - off else n
    let (bytes, ip, d) ← readLoop sb n ip off n d
    .ok ((n, bytes), ip, d)

/-- The loop of `writei`, at most `fuel` times round: the offset it ends at. -/
def writeLoop : Nat → Dinode → Nat → List UInt8 → Disk → Except String (Nat × Dinode × Disk)
  | 0, ip, off, _, d => .ok (off, ip, d)
  | fuel + 1, ip, off, src, d =>
      if src = [] then .ok (off, ip, d)
      else do
        let (bp, ip, d) ← bmap sb ip (off / bsize) d
        let m := min src.length (bsize - off % bsize)
        let d := d.logWrite bp (splice (d.data bp) (off % bsize) m fun i => src.getD i 0)
        writeLoop fuel ip (off + m) (src.drop m) d

/-- Write data to inode. -/
def writei (devsw : Nat → Device) (inum : Nat) (ip : Dinode) (src : List UInt8) (off : Nat)
    (d : Disk) : Except String (Int × Dinode × Disk) :=
  let n := src.length
  if ip.type = tDev then
    if 2 ^ 15 ≤ ip.major ∨ ndev ≤ ip.major then .ok (-1, ip, d)
    else match (devsw ip.major).write with
      | none => .ok (-1, ip, d)
      | some write => .ok (write src, ip, d)
  else if ip.size < off ∨ (off + n) % 2 ^ 32 < off then .ok (-1, ip, d)
  else if maxfile * bsize < (off + n) % 2 ^ 32 then .ok (-1, ip, d)
  else do
    let (off, ip, d) ← writeLoop sb n ip off src d
    if 0 < n ∧ ip.size < off then
      let ip := { ip with size := off }
      .ok (n, ip, iupdate sb d inum ip)
    else .ok (n, ip, d)

/-! ## The inodes in memory -/

/-- `struct inode`; `copy` are the fields that `ilock` reads from the disk. -/
structure Inode where
  inum : Nat
  ref : Nat
  valid : Bool
  copy : Dinode

structure State where
  disk : Disk
  icache : Nat → Inode

def State.setInode (s : State) (i : Nat) (ip : Inode) : State :=
  { s with icache := update s.icache i ip }

/-- Find the inode with number `inum` and return the in-memory copy. -/
def iget (s : State) (inum : Nat) : Except String (Nat × State) :=
  let slots := List.range ninode
  match slots.find? fun i => 0 < (s.icache i).ref && (s.icache i).inum = inum with
  | some i => .ok (i, s.setInode i { s.icache i with ref := (s.icache i).ref + 1 })
  | none =>
      match slots.find? fun i => (s.icache i).ref = 0 with
      | some i => .ok (i, s.setInode i { s.icache i with inum := inum, ref := 1, valid := false })
      | none => .error "iget: no inodes"

/-- Increment reference count for ip. -/
def idup (s : State) (i : Nat) : State :=
  s.setInode i { s.icache i with ref := (s.icache i).ref + 1 }

/-- Allocate an inode on the disk. -/
def ialloc (s : State) (type : Nat) : Except String (Nat × State) :=
  match (List.range' 1 (sb.ninodes - 1)).find? fun inum => (dinode sb s.disk inum).type = 0 with
  | some inum =>
      let a := ioffset inum
      let m := splice (s.disk.data (iblock sb inum)) a 64 fun _ => 0
      iget { s with disk := s.disk.logWrite (iblock sb inum) (putLe m a 2 type) } inum
  | none => .error "ialloc: no inodes"

/-- Lock the given inode: read it from the disk if necessary. -/
def ilock (s : State) (i : Nat) : Except String State :=
  let ip := s.icache i
  if ip.ref < 1 then .error "ilock"
  else if ip.valid then .ok s
  else
    let copy := dinode sb s.disk ip.inum
    if copy.type = 0 then .error "ilock: no type"
    else .ok (s.setInode i { ip with copy := copy, valid := true })

/-- The first half of `iput`: an inode without links and other references is truncated
and freed. -/
def ifree (s : State) (i : Nat) : Except String State :=
  let ip := s.icache i
  if ip.valid ∧ ip.copy.nlink = 0 ∧ ip.ref = 1 then do
    let (copy, d) ← itrunc sb ip.inum ip.copy s.disk
    let copy := { copy with type := 0 }
    .ok { disk := iupdate sb d ip.inum copy
          icache := update s.icache i { ip with copy := copy, valid := false } }
  else .ok s

/-- Drop a reference to an in-memory inode. Of two processes with the last two references
of an inode, one is through with this before the other begins. -/
def iput (s : State) (i : Nat) : Except String State := do
  let s ← ifree sb s i
  .ok (s.setInode i { s.icache i with ref := (s.icache i).ref - 1 })

end Os377.Xv6.Filesys
