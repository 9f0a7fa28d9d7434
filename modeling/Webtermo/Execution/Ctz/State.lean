import Webtermo.Library.Run

-- The skip list of the blocks of a file in littlefs, with the functions of `lfs.c` that extend it and that
-- follow its pointers
namespace Ctz

def ctz (a : Nat) : Nat :=
  Nat.findGreatest (2 ^ · ∣ a) 31

-- For an argument above 1
def npw2 (a : Nat) : Nat :=
  Nat.log2 (a - 1) + 1

abbrev Block := UInt32

-- The words at the beginning of each block, where `none` has not been programmed
abbrev Disk := Block → Nat → Option Block

def Disk.erase (d : Disk) (block : Block) : Disk :=
  fun x i => if x = block then none else d x i

def Disk.prog (d : Disk) (block : Block) (i : Nat) (p : Block) : Disk :=
  fun x j => if x = block ∧ j = i then some p else d x j

def Disk.copy (d : Disk) (nblock head : Block) : Disk :=
  fun x i => if x = nblock then d head i else d x i

-- The loop of `lfs_ctz_find`, for as many turns
def ctzFind (d : Disk) : (turns : Nat) → (head : Block) → (current target : Nat) → Option Block
  | 0,         head, current, target => if target < current then none else some head
  | turns + 1, head, current, target =>
    if target < current then do
      let skip := min (npw2 (current - target + 1) - 1) (ctz current)
      let head ← d head skip
      ctzFind d turns head (current - 2 ^ skip) target
    else some head

-- The loop of `lfs_ctz_extend` over the pointers of the new block, of which so many are left
def link (nblock : Block) : (left i : Nat) → (nhead : Block) → Disk → Option Disk
  | 0,        _, _,     d => some d
  | left + 1, i, nhead, d =>
    let d := d.prog nblock i nhead
    if left = 0 then some d
    else do
      let nhead ← d nhead i
      link nblock left (i + 1) nhead d

-- A file with the index of its last block
structure File where
  disk  : Disk
  head  : Option Block
  index : Nat

-- `lfs_ctz_extend` with the block that `lfs_alloc` grabs. The last block is full, or it is copied.
def ctzExtend (f : File) (nblock : Block) (full : Bool) : Option File :=
  let d := f.disk.erase nblock
  match f.head with
  | none      => some ⟨d, some nblock, 0⟩
  | some head =>
    if full then do
      let index := f.index + 1
      let d ← link nblock (ctz index + 1) 0 head d
      some ⟨d, some nblock, index⟩
    else some ⟨d.copy nblock head, some nblock, f.index⟩

-- The blocks that `lfs_ctz_traverse` calls back for, in as many turns
def ctzTraverse (d : Disk) : (turns : Nat) → (head : Block) → (index : Nat) → Option (List Block)
  | 0,         _,    _     => none
  | turns + 1, head, index =>
    if index = 0 then some [head]
    else if index % 2 = 1 then do
      let head₁ ← d head 0
      let blocks ← ctzTraverse d turns head₁ (index - 1)
      some (head :: blocks)
    else do
      let head₁ ← d head 0
      let head₂ ← d head 1
      let blocks ← ctzTraverse d turns head₂ (index - 2)
      some (head :: head₁ :: blocks)

-- The blocks that are in use
def File.blocks (f : File) : List Block :=
  (f.head.bind fun head => ctzTraverse f.disk (f.index + 1) head f.index).getD []

structure Event where
  nblock : Block
  full   : Bool

-- `lfs_alloc` grabs no block that is in use.
def Event.Possible (f : File) (e : Event) : Prop :=
  e.nblock ∉ f.blocks ∧ f.index + 1 < 2 ^ 32

def writer : Machine File Event Unit where
  step f e := (ctzExtend f e.nblock e.full).map (·, [])

def File.empty : File :=
  ⟨fun _ _ => none, none, 0⟩

-- The list of blocks that a file stands for
def append (b : List Block) (e : Event) : List Block :=
  if e.full then b ++ [e.nblock] else b.dropLast ++ [e.nblock]

def blockSize : Nat := 4096

def fileMax : Nat := 2147483647

-- The number of ones in a word
def popc (a : Nat) : Nat :=
  (Nat.digits 2 a).sum

-- `lfs_ctz_index`: the index of the block of a position, and the offset in this block
def ctzIndex (off : Nat) : Nat × Nat :=
  let b := blockSize - 2 * 4
  let i := off / b
  if i = 0 then (0, off)
  else
    let i := (off - 4 * (popc (i - 1) + 2)) / b
    (i, off - b * i - 4 * popc i)

-- `lfs_ctz_find` in a file that is not empty
def ctzFindPos (d : Disk) (head : Block) (size pos : Nat) : Option (Block × Nat) := do
  let current := (ctzIndex (size - 1)).1
  let (target, off) := ctzIndex pos
  let head ← ctzFind d current head current target
  some (head, off)

-- `lfs_ctz_extend`, with the offset at which the new block goes on
def ctzExtendPos (d : Disk) (head : Block) (size : Nat) (nblock : Block) : Option (Disk × Nat) :=
  let d := d.erase nblock
  if size = 0 then some (d, 0)
  else
    let (index, noff) := ctzIndex (size - 1)
    if noff + 1 ≠ blockSize then some (d.copy nblock head, noff + 1)
    else do
      let skips := ctz (index + 1) + 1
      let d ← link nblock skips 0 head d
      some (d, 4 * skips)

-- `lfs_ctz_traverse`
def ctzTraversePos (d : Disk) (head : Block) (size : Nat) : Option (List Block) :=
  if size = 0 then some []
  else
    let index := (ctzIndex (size - 1)).1
    ctzTraverse d (index + 1) head index

-- A file that `lfs_file_flushedwrite` appends to, with the block that it writes
structure Open where
  disk  : Disk
  block : Block
  pos   : Nat

def Open.blocks (o : Open) : List Block :=
  (ctzTraversePos o.disk o.block o.pos).getD []

def Open.empty : Open :=
  ⟨fun _ _ => none, 0xFFFFFFFF, 0⟩

-- The bytes that are still to be written, and the block that is grabbed for them
structure Piece where
  nblock : Block
  nsize  : Nat

def Piece.Possible (o : Open) (p : Piece) : Prop :=
  p.nblock ∉ o.blocks ∧ 0 < p.nsize ∧ o.pos + p.nsize ≤ fileMax

-- A turn of the loop of `lfs_file_flushedwrite` that needs a new block
def appender : Machine Open Piece Unit where
  step o p := do
    let (d, off) ← ctzExtendPos o.disk o.block o.pos p.nblock
    some (⟨d, p.nblock, o.pos + min p.nsize (blockSize - off)⟩, [])

end Ctz
