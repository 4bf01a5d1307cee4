import Xv6.Fs.Bmap

/-!
# `mkfs`'s `iappend`

`iappend(inum, p, n)` appends `n` bytes to inode `inum` of the image `mkfs` writes, taking new
blocks from `freeblock++`. It knows direct blocks and the single indirect block only: past
`NDIRECT` it indexes `indirect[fbn - NDIRECT]`, an array of `NINDIRECT` entries, although its
assertion admits any `fbn < MAXFILE`. The model stops (`none`) at an index past that array,
which C leaves undefined, and at a failed assertion.

The host's `xint` is the identity (a little-endian host). `rsect` of a block past the end of
the image is not modelled: every sector reads as the disk holds it.
-/

set_option autoImplicit false

namespace Xv6.Fs

/-- What `mkfs` keeps of the image it writes: the sectors (`wsect`/`rsect`), the inodes
(`winode`/`rinode`), and `freeblock`. -/
structure Img where
  disk : Nat → Block
  inodes : Nat → DInode
  freeblock : Nat

/-- `bcopy(q, buf + o, len)`: the bytes `q` over those of `b` from offset `o`. -/
def bcopyInto (b : Block) (o : Nat) (q : List UInt8) : Block :=
  fun i => if o ≤ i.val ∧ i.val < o + q.length then q.getD (i.val - o) 0 else b i

/-- `if(xint(din.addrs[k]) == 0) din.addrs[k] = xint(freeblock++);`. -/
def allocSlot (img : Img) (din : DInode) (k : AddrIdx) : Img × DInode :=
  if din.addrs k = 0 then
    ({ img with freeblock := img.freeblock + 1 },
     { din with addrs := Function.update din.addrs k (img.freeblock % 2 ^ 32) })
  else (img, din)

/-- The block `x` of `iappend` for file block `fbn`, allocated if null: a direct slot, or the
entry `fbn - NDIRECT` of the indirect block, itself allocated if null. `none` when that entry
is past the end of `indirect[NINDIRECT]`. -/
def iappendBlock (img : Img) (din : DInode) (fbn : Nat) : Option (Img × DInode × Nat) :=
  if h : fbn < ndirect then
    let (img, din) := allocSlot img din (dirIdx ⟨fbn, h⟩)
    some (img, din, din.addrs (dirIdx ⟨fbn, h⟩))
  else
    let (img, din) := allocSlot img din (indIdx 0)
    let ind := din.addrs (indIdx 0)
    -- `rsect(xint(din.addrs[NDIRECT]), (char*)indirect)`
    let indirect := (img.disk ind).word
    if h : fbn - ndirect < nindirect then
      let j : Fin nindirect := ⟨fbn - ndirect, h⟩
      if indirect j = 0 then
        -- `indirect[fbn - NDIRECT] = xint(freeblock++); wsect(..., (char*)indirect)`
        let indirect := Function.update indirect j (img.freeblock % 2 ^ 32)
        some ({ img with freeblock := img.freeblock + 1,
                         disk := Function.update img.disk ind (Block.ofWords indirect) },
              din, indirect j)
      else some (img, din, indirect j)
    else none

/-- The loop `while(n > 0)` of `iappend` from offset `off`, with the bytes `p` still to
append: the image, the inode and the offset it ends at. `none` is the failed
`assert(fbn < MAXFILE)`, or an index past `indirect`. Each round appends at least one byte, so
`p.length` rounds of fuel are enough. -/
def iappendLoop : Nat → Img → DInode → Nat → List UInt8 → Option (Img × DInode × Nat)
  | _, img, din, off, [] => some (img, din, off)
  | 0, _, _, _, _ :: _ => none
  | fuel + 1, img, din, off, b :: bs =>
    let p := b :: bs
    let fbn := off / bsize
    if fbn < maxfile then
      (iappendBlock img din fbn).bind fun (img, din, x) =>
        let n1 := min p.length ((fbn + 1) * bsize - off)
        -- `rsect(x, buf); bcopy(p, buf + off - (fbn * BSIZE), n1); wsect(x, buf)`
        let img := { img with
          disk := Function.update img.disk x (bcopyInto (img.disk x) (off - fbn * bsize) (p.take n1)) }
        iappendLoop fuel img din (off + n1) (p.drop n1)
    else none

/-- `iappend(inum, p, n)`: `din.size = xint(off); winode(inum, &din)` after the loop. -/
def iappend (img : Img) (inum : Nat) (p : List UInt8) : Option Img :=
  let din := img.inodes inum
  (iappendLoop p.length img din din.size p).map fun (img, din, off) =>
    { img with inodes := Function.update img.inodes inum { din with size := off } }

end Xv6.Fs
