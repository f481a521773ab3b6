import Mathlib.Data.List.FinRange
import OsCourse.Lib.Bitmap

/-!
# OsCourse.Fs.Model

Blocks and inodes of the file system (`OS-lab-xv6-lock/fs.c`, `fs.h`, `file.h`): the
block allocator, the inode cache, `bmap`, `itrunc`, `readi` and `writei`.

The disk is what `bread` sees: the newest contents that were logged, whether they
have been installed or not. The log is left out; that a transaction fits in it is
the duty of the callers, who split long writes. Operations run from start to end,
as under the locks they take. There is one device.
-/

namespace OsCourse.Fs

open Lib

/-- `BSIZE`: block size. -/
abbrev BSIZE : Nat := 512

/-- `NDIRECT`. -/
abbrev NDIRECT : Nat := 12

/-- `NINDIRECT`. -/
abbrev NINDIRECT : Nat := 128

/-- `MAXFILE`: blocks of a file. -/
abbrev MAXFILE : Nat := 140

/-- `IPB`: inodes per block. -/
abbrev IPB : Nat := 8

/-- `BPB`: bits of the free map per block. -/
abbrev BPB : Nat := 4096

/-- `T_FILE`. -/
abbrev T_FILE : UInt16 := 2

/-- `T_DEV`. -/
abbrev T_DEV : UInt16 := 3

/-- `struct superblock`, as `mkfs` lays a disk out: the blocks below `nmeta` are the
boot block, the super block, the log, the inodes and the free map. `balloc` counts
blocks in an `int`. -/
structure Superblock where
  size : Nat
  ninodes : Nat
  inodestart : Nat
  bmapstart : Nat
  nmeta : Nat
  size_lt : size + BPB ≤ 2147483648
  inodes_lt : inodestart + ninodes / IPB < bmapstart
  bmap_lt : bmapstart + size / BPB < nmeta

/-- The blocks of a disk. -/
abbrev Disk := Nat → Block

/-- Why a call does not return. -/
inductive Panic
  /-- `panic("balloc: out of blocks")`. -/
  | outOfBlocks
  /-- `panic("freeing free block")`. -/
  | freeingFree
  /-- `panic("ialloc: no inodes")`. -/
  | noInodes
  /-- `panic("iget: no inodes")`. -/
  | noEntries
  /-- `panic("ilock")`. -/
  | ilock
  /-- `panic("ilock: no type")`. -/
  | noType
  /-- `panic("bmap: out of range")`. -/
  | bmapRange
  deriving DecidableEq

/-! ### Disk inodes -/

/-- `struct dinode`. -/
structure Dinode where
  type : UInt16
  major : UInt16
  minor : UInt16
  nlink : UInt16
  size : UInt32
  addrs : Vector UInt32 13
  deriving DecidableEq

namespace Dinode

/-- A `struct dinode` of zeros. -/
def zero : Dinode := ⟨0, 0, 0, 0, 0, Vector.replicate 13 0⟩

/-- `addrs[i]`. -/
def addr (d : Dinode) (i : Nat) : UInt32 := d.addrs[i]?.getD 0

/-- `addrs[i] = a`. -/
def setAddr (d : Dinode) (i : Nat) (a : UInt32) : Dinode :=
  { d with addrs := d.addrs.setIfInBounds i a }

/-- `((struct dinode*)b->data)[k]`. -/
def read (b : Block) (k : Nat) : Dinode where
  type := UInt16.ofNat (getField b (64 * k) 2)
  major := UInt16.ofNat (getField b (64 * k + 2) 2)
  minor := UInt16.ofNat (getField b (64 * k + 4) 2)
  nlink := UInt16.ofNat (getField b (64 * k + 6) 2)
  size := word b (16 * k + 2)
  addrs := Vector.ofFn fun i => word b (16 * k + 3 + i)

/-- `((struct dinode*)b->data)[k] = d`. -/
def write (b : Block) (k : Nat) (d : Dinode) : Block :=
  let b := setField b (64 * k) 2 d.type.toNat
  let b := setField b (64 * k + 2) 2 d.major.toNat
  let b := setField b (64 * k + 4) 2 d.minor.toNat
  let b := setField b (64 * k + 6) 2 d.nlink.toNat
  setWords (setWord b (16 * k + 2) d.size) (16 * k + 3) d.addrs.toList

end Dinode

/-- `IBLOCK`. -/
def IBLOCK (sb : Superblock) (inum : Nat) : Nat := inum / IPB + sb.inodestart

/-- `BBLOCK`. -/
def BBLOCK (sb : Superblock) (b : Nat) : Nat := b / BPB + sb.bmapstart

/-- The disk inode `inum`. -/
def dinode (sb : Superblock) (disk : Disk) (inum : Nat) : Dinode :=
  Dinode.read (disk (IBLOCK sb inum)) (inum % IPB)

/-- `iupdate`, of the inode `inum` with the contents `d`. -/
def iupdate (sb : Superblock) (disk : Disk) (inum : Nat) (d : Dinode) : Disk :=
  Function.update disk (IBLOCK sb inum) (Dinode.write (disk (IBLOCK sb inum)) (inum % IPB) d)

/-! ### Blocks -/

/-- `bzero`. -/
def bzero (disk : Disk) (bno : Nat) : Disk := Function.update disk bno fun _ => 0

/-- The inner loop of `balloc`, for the free map of the blocks from `b` on. -/
def ballocInner (sb : Superblock) (disk : Disk) (b bi : Nat) : Option Nat :=
  if bi < BPB ∧ b + bi < sb.size then
    if bit (disk (BBLOCK sb b)) bi then ballocInner sb disk b (bi + 1) else some (b + bi)
  else none
termination_by BPB - bi
decreasing_by omega

/-- The outer loop of `balloc`, from `b` on: the first free block. -/
def ballocOuter (sb : Superblock) (disk : Disk) (b : Nat) : Option Nat :=
  if b < sb.size then
    match ballocInner sb disk b 0 with
    | some r => some r
    | none => ballocOuter sb disk (b + BPB)
  else none
termination_by sb.size - b
decreasing_by simp only [BPB]; omega

/-- `balloc`. -/
def balloc (sb : Superblock) (disk : Disk) : Except Panic (UInt32 × Disk) :=
  match ballocOuter sb disk 0 with
  | none => .error .outOfBlocks
  | some b =>
      let disk := Function.update disk (BBLOCK sb b) (setBit (disk (BBLOCK sb b)) (b % BPB))
      .ok (UInt32.ofNat b, bzero disk b)

/-- `bfree`. -/
def bfree (sb : Superblock) (disk : Disk) (b : UInt32) : Except Panic Disk :=
  let bp := disk (BBLOCK sb b.toNat)
  let bi := b.toNat % BPB
  if bit bp bi then .ok (Function.update disk (BBLOCK sb b.toNat) (clearBit bp bi))
  else .error .freeingFree

/-! ### Inode content -/

/-- `if((addr = *slot) == 0) *slot = addr = balloc(dev)`. -/
def ballocIfZero (sb : Superblock) (disk : Disk) (addr : UInt32) : Except Panic (UInt32 × Disk) :=
  if addr = 0 then balloc sb disk else .ok (addr, disk)

/-- `bmap`: the block number, the inode in memory and the disk. -/
def bmap (sb : Superblock) (disk : Disk) (ip : Dinode) (bn : Nat) :
    Except Panic (UInt32 × Dinode × Disk) :=
  if bn < NDIRECT then
    match ballocIfZero sb disk (ip.addr bn) with
    | .error e => .error e
    | .ok (addr, disk) => .ok (addr, ip.setAddr bn addr, disk)
  else
    let bn := bn - NDIRECT
    if bn < NINDIRECT then
      -- load indirect block, allocating if necessary
      match ballocIfZero sb disk (ip.addr NDIRECT) with
      | .error e => .error e
      | .ok (addr, disk) =>
          let ip := ip.setAddr NDIRECT addr
          let a := word (disk addr.toNat) bn
          if a = 0 then
            match balloc sb disk with
            | .error e => .error e
            | .ok (a, disk) =>
                .ok (a, ip, Function.update disk addr.toNat (setWord (disk addr.toNat) bn a))
          else .ok (a, ip, disk)
    else .error .bmapRange

/-- The loop of `itrunc` over the direct blocks `is`. -/
def truncDirect (sb : Superblock) : List Nat → Disk → Dinode → Except Panic (Disk × Dinode)
  | [], disk, ip => .ok (disk, ip)
  | i :: is, disk, ip =>
      if ip.addr i = 0 then truncDirect sb is disk ip
      else
        match bfree sb disk (ip.addr i) with
        | .error e => .error e
        | .ok disk => truncDirect sb is disk (ip.setAddr i 0)

/-- The loop of `itrunc` over the entries `js` of the indirect block `a`. -/
def truncIndirect (sb : Superblock) (a : Block) : List Nat → Disk → Except Panic Disk
  | [], disk => .ok disk
  | j :: js, disk =>
      if word a j = 0 then truncIndirect sb a js disk
      else
        match bfree sb disk (word a j) with
        | .error e => .error e
        | .ok disk => truncIndirect sb a js disk

/-- `itrunc`, of the inode `inum` with the contents `ip`. -/
def itrunc (sb : Superblock) (disk : Disk) (inum : Nat) (ip : Dinode) :
    Except Panic (Disk × Dinode) :=
  match truncDirect sb (List.range NDIRECT) disk ip with
  | .error e => .error e
  | .ok (disk, ip) =>
      if ip.addr NDIRECT = 0 then
        let ip := { ip with size := 0 }
        .ok (iupdate sb disk inum ip, ip)
      else
        match truncIndirect sb (disk (ip.addr NDIRECT).toNat) (List.range NINDIRECT) disk with
        | .error e => .error e
        | .ok disk =>
            match bfree sb disk (ip.addr NDIRECT) with
            | .error e => .error e
            | .ok disk =>
                let ip := { ip.setAddr NDIRECT 0 with size := 0 }
                .ok (iupdate sb disk inum ip, ip)

/-- `devsw`, by major number: `none` if the number is out of range or the device has
no such function. -/
structure Devsw where
  read : UInt16 → Option (UInt32 → Int × List UInt8)
  write : UInt16 → Option ((Nat → UInt8) → UInt32 → Int)

/-- The loop of `readi`: the bytes at `dst`. -/
def readLoop (sb : Superblock) (n : Nat) (disk : Disk) (ip : Dinode) (off tot : Nat)
    (dst : List UInt8) : Except Panic (List UInt8 × Dinode × Disk) :=
  if tot < n then
    match bmap sb disk ip (off / BSIZE) with
    | .error e => .error e
    | .ok (addr, ip, disk) =>
        let m := min (n - tot) (BSIZE - off % BSIZE)
        let bytes := (List.range m).map fun i => disk addr.toNat (off % BSIZE + i)
        readLoop sb n disk ip (off + m) (tot + m) (dst ++ bytes)
  else .ok (dst, ip, disk)
termination_by n - tot
decreasing_by
  have hmod : off % BSIZE < BSIZE := Nat.mod_lt off (by decide)
  omega

/-- `readi`: the result and the bytes at `dst`. -/
def readi (sb : Superblock) (dev : Devsw) (disk : Disk) (ip : Dinode) (off n : UInt32) :
    Except Panic (Int × List UInt8 × Dinode × Disk) :=
  if ip.type = T_DEV then
    match dev.read ip.major with
    | none => .ok (-1, [], ip, disk)
    | some read => .ok ((read n).1, (read n).2, ip, disk)
  else if off > ip.size ∨ off + n < off then .ok (-1, [], ip, disk)
  else
    let n := if off + n > ip.size then ip.size - off else n
    match readLoop sb n.toNat disk ip off.toNat 0 [] with
    | .error e => .error e
    | .ok (dst, ip, disk) => .ok (n.toNat, dst, ip, disk)

/-- `memmove(b->data + off, src, m)`. -/
def memmove (b : Block) (off m : Nat) (src : Nat → UInt8) : Block := fun i =>
  if off ≤ i ∧ i < off + m then src (i - off) else b i

/-- The loop of `writei`, with the bytes from `src` on. -/
def writeLoop (sb : Superblock) (src : Nat → UInt8) (n : Nat) (disk : Disk) (ip : Dinode)
    (off tot : Nat) : Except Panic (Dinode × Disk) :=
  if tot < n then
    match bmap sb disk ip (off / BSIZE) with
    | .error e => .error e
    | .ok (addr, ip, disk) =>
        let m := min (n - tot) (BSIZE - off % BSIZE)
        let bp := memmove (disk addr.toNat) (off % BSIZE) m fun i => src (tot + i)
        writeLoop sb src n (Function.update disk addr.toNat bp) ip (off + m) (tot + m)
  else .ok (ip, disk)
termination_by n - tot
decreasing_by
  have hmod : off % BSIZE < BSIZE := Nat.mod_lt off (by decide)
  omega

/-- `writei`, of the inode `inum` with the contents `ip`. -/
def writei (sb : Superblock) (dev : Devsw) (disk : Disk) (inum : Nat) (ip : Dinode)
    (src : Nat → UInt8) (off n : UInt32) : Except Panic (Int × Dinode × Disk) :=
  if ip.type = T_DEV then
    match dev.write ip.major with
    | none => .ok (-1, ip, disk)
    | some write => .ok (write src n, ip, disk)
  else if off > ip.size ∨ off + n < off then .ok (-1, ip, disk)
  else if (off + n).toNat > MAXFILE * BSIZE then .ok (-1, ip, disk)
  else
    match writeLoop sb src n.toNat disk ip off.toNat 0 with
    | .error e => .error e
    | .ok (ip, disk) =>
        -- off has moved to the end of the write
        if n > 0 ∧ off + n > ip.size then
          let ip := { ip with size := off + n }
          .ok (n.toNat, ip, iupdate sb disk inum ip)
        else .ok (n.toNat, ip, disk)

/-! ### The inode cache -/

/-- `struct inode`. -/
structure Inode where
  inum : Nat
  ref : Nat
  valid : Bool
  /-- The copy of the disk inode. -/
  din : Dinode

/-- The disk, and `icache.inode` with `k` entries (`NINODE`). -/
structure State (k : Nat) where
  disk : Disk
  icache : Fin k → Inode

variable {k : Nat}

/-- `iget`. -/
def iget (s : State k) (inum : Nat) : Except Panic (Fin k × State k) :=
  match (List.finRange k).find? fun i => 0 < (s.icache i).ref ∧ (s.icache i).inum = inum with
  | some i =>
      let ip := s.icache i
      .ok (i, { s with icache := Function.update s.icache i { ip with ref := ip.ref + 1 } })
  | none =>
      match (List.finRange k).find? fun i => (s.icache i).ref = 0 with
      | none => .error .noEntries
      | some i =>
          let ip := { s.icache i with inum, ref := 1, valid := false }
          .ok (i, { s with icache := Function.update s.icache i ip })

/-- `ialloc`. -/
def ialloc (sb : Superblock) (s : State k) (type : UInt16) : Except Panic (Fin k × State k) :=
  match (List.range' 1 (sb.ninodes - 1)).find? fun inum => (dinode sb s.disk inum).type = 0 with
  | none => .error .noInodes
  | some inum => iget { s with disk := iupdate sb s.disk inum { Dinode.zero with type } } inum

/-- `idup`. -/
def idup (s : State k) (i : Fin k) : State k :=
  let ip := s.icache i
  { s with icache := Function.update s.icache i { ip with ref := ip.ref + 1 } }

/-- `ilock`. -/
def ilock (sb : Superblock) (s : State k) (i : Fin k) : Except Panic (State k) :=
  let ip := s.icache i
  if ip.ref < 1 then .error .ilock
  else if ip.valid then .ok s
  else
    let din := dinode sb s.disk ip.inum
    if din.type = 0 then .error .noType
    else .ok { s with icache := Function.update s.icache i { ip with din, valid := true } }

/-- `iput`. -/
def iput (sb : Superblock) (s : State k) (i : Fin k) : Except Panic (State k) :=
  let ip := s.icache i
  if ip.valid ∧ ip.din.nlink = 0 ∧ ip.ref = 1 then
    -- no links and no other references: truncate and free
    match itrunc sb s.disk ip.inum ip.din with
    | .error e => .error e
    | .ok (disk, din) =>
        let din := { din with type := 0 }
        .ok
          { disk := iupdate sb disk ip.inum din
            icache := Function.update s.icache i
              { ip with din, valid := false, ref := ip.ref - 1 } }
  else .ok { s with icache := Function.update s.icache i { ip with ref := ip.ref - 1 } }

/-- `f` on a locked inode: its result, the inode and the disk. -/
def locked {α : Type} (sb : Superblock) (s : State k) (i : Fin k)
    (f : Disk → Nat → Dinode → Except Panic (α × Dinode × Disk)) : Except Panic (α × State k) :=
  match ilock sb s i with
  | .error e => .error e
  | .ok s =>
      let ip := s.icache i
      match f s.disk ip.inum ip.din with
      | .error e => .error e
      | .ok (r, din, disk) => .ok (r, ⟨disk, Function.update s.icache i { ip with din }⟩)

/-- `readi` between `ilock` and `iunlock`. -/
def readLocked (sb : Superblock) (dev : Devsw) (s : State k) (i : Fin k) (off n : UInt32) :
    Except Panic ((Int × List UInt8) × State k) :=
  locked sb s i fun disk _ ip =>
    (readi sb dev disk ip off n).map fun r => ((r.1, r.2.1), r.2.2)

/-- `writei` between `ilock` and `iunlock`. -/
def writeLocked (sb : Superblock) (dev : Devsw) (s : State k) (i : Fin k) (src : Nat → UInt8)
    (off n : UInt32) : Except Panic (Int × State k) :=
  locked sb s i fun disk inum ip => writei sb dev disk inum ip src off n

/-- New numbers in a locked inode, and `iupdate`. -/
def updateLocked (sb : Superblock) (s : State k) (i : Fin k) (major minor nlink : UInt16) :
    Except Panic (Unit × State k) :=
  locked sb s i fun disk inum ip =>
    let ip := { ip with major, minor, nlink }
    .ok ((), ip, iupdate sb disk inum ip)

end OsCourse.Fs
