import Mathlib.Data.Nat.Notation

/-!
# Kernel parameters

The constants of the header files and of `mkfs.c`, under the names the source gives them, and the panics the
modelled functions can raise.
-/

namespace Xv6

/-! ## `param.h` -/

/-- The maximum number of processes. -/
def NPROC : ℕ := 64

/-- The maximum number of CPUs. -/
def NCPU : ℕ := 8

/-- Open files of a process. -/
def NOFILE : ℕ := 16

/-- Open files of the system. -/
def NFILE : ℕ := 100

/-- Maximum number of active i-nodes. -/
def NINODE : ℕ := 50

/-- Maximum major device number. -/
def NDEV : ℕ := 10

/-- Maximum number of blocks any FS operation writes. -/
def MAXOPBLOCKS : ℕ := 10

/-- Maximum number of data blocks in the on-disk log. -/
def LOGSIZE : ℕ := MAXOPBLOCKS * 3

/-- Size of the disk block cache. -/
def NBUF : ℕ := MAXOPBLOCKS * 3

/-- Size of file system in blocks. -/
def FSSIZE : ℕ := 2000

/-! ## `fs.h` -/

/-- Block size. -/
def BSIZE : ℕ := 512

/-- Root i-number. -/
def ROOTINO : ℕ := 1

/-- Number of block addresses in an inode that name data blocks. -/
def NDIRECT : ℕ := 12

/-- Number of block addresses in an indirect block. -/
def NINDIRECT : ℕ := BSIZE / 4

/-- Maximum number of blocks of a file. -/
def MAXFILE : ℕ := NDIRECT + NINDIRECT

/-- Inodes per block. -/
def IPB : ℕ := BSIZE / 64

/-- Bitmap bits per block. -/
def BPB : ℕ := BSIZE * 8

/-- Maximum length of a file name. -/
def DIRSIZ : ℕ := 14

/-! ## `file.h` and `fcntl.h` -/

/-- The major device number of the console, the only device that `devsw` has functions for. -/
def CONSOLE : ℕ := 1

/-- Open for reading only. -/
def O_RDONLY : BitVec 32 := 0x000

/-- Open for writing only. -/
def O_WRONLY : BitVec 32 := 0x001

/-- Open for reading and writing. -/
def O_RDWR : BitVec 32 := 0x002

/-- Create the file if it does not exist. -/
def O_CREATE : BitVec 32 := 0x200

/-! ## `elf.h` and `mmu.h` -/

/-- The first word of an executable file. -/
def ELF_MAGIC : ℕ := 0x464C457F

/-- The type of a program header that is to be loaded. -/
def ELF_PROG_LOAD : ℕ := 1

/-- Bytes mapped by a page. -/
def PGSIZE : ℕ := 4096

/-! ## `stat.h` -/

/-- Directory. -/
def T_DIR : BitVec 16 := 1

/-- File. -/
def T_FILE : BitVec 16 := 2

/-- Device. -/
def T_DEV : BitVec 16 := 3

/-! ## `mkfs.c` -/

/-- Number of log blocks `mkfs` writes into the super block, the header block included. -/
def nlog : ℕ := LOGSIZE

/-- The calls of `panic` in the modelled functions. -/
inductive Panic where
  | logTooBig
  | logOutsideTrans
  | logCommitting
  | bgetNoBuffers
  | iderwNothing
  | ballocOutOfBlocks
  | freeingFreeBlock
  | iallocNoInodes
  | bmapOutOfRange
  | ilockNoType
  | igetNoInodes
  | ilock
  | iunlock
  | dirlookupNotDir
  | dirlookupRead
  | dirlinkRead
  | dirlink
  | isdiremptyReadi
  | unlinkNlink
  | unlinkWritei
  | createDots
  | createDirlink
  | filedup
  | fileclose
  | fileread
  | filewrite
  | shortFilewrite
  | initExiting
deriving DecidableEq, Repr

/-- The ways in which a process stops for good: a panic, or a `sleep` that nobody ends. -/
inductive Halt where
  | panic (p : Panic)
  | sleep
deriving DecidableEq, Repr

end Xv6
