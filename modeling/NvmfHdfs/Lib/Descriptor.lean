/-
  An open file descriptor over a byte image.

  `lseek`, `read` and `write` are the system calls on it when they complete:
  the whole transfer is made and the position moves past it.  A position beyond
  the range of `off_t` has no such outcome (`none`).
-/
import NvmfHdfs.Lib.Image

/-- What the file holds and the position of its descriptor. -/
structure Descriptor where
  image : Image
  pos : ℕ

namespace Descriptor

/-- The end of the positions an `off_t` can express. -/
def offMax : ℕ := 2 ^ 63

/-- `lseek(fd, off, SEEK_SET)`. -/
def lseek (d : Descriptor) (off : ℕ) : Option Descriptor :=
  if off < offMax then some ⟨d.image, off⟩ else none

/-- `read(fd, buf, n)`, transferring all `n` bytes. -/
def read (d : Descriptor) (n : ℕ) : Option (List UInt8 × Descriptor) :=
  if d.pos + n ≤ offMax then some (d.image.slice d.pos n, ⟨d.image, d.pos + n⟩) else none

/-- `write(fd, bs, len)`, transferring all bytes of `bs`. -/
def write (d : Descriptor) (bs : List UInt8) : Option Descriptor :=
  if d.pos + bs.length ≤ offMax then some ⟨d.image.patch d.pos bs, d.pos + bs.length⟩ else none

variable {d d' : Descriptor} {off n : ℕ} {bs : List UInt8}

theorem lseek_eq_some : d.lseek off = some d' ↔ off < offMax ∧ d' = ⟨d.image, off⟩ := by
  unfold lseek; split_ifs with h <;> simp [h, eq_comm]

theorem read_eq_some : d.read n = some (bs, d') ↔
    d.pos + n ≤ offMax ∧ bs = d.image.slice d.pos n ∧ d' = ⟨d.image, d.pos + n⟩ := by
  unfold read; split_ifs with h <;> simp [h, eq_comm]

theorem write_eq_some : d.write bs = some d' ↔
    d.pos + bs.length ≤ offMax ∧ d' = ⟨d.image.patch d.pos bs, d.pos + bs.length⟩ := by
  unfold write; split_ifs with h <;> simp [h, eq_comm]

theorem write_nil (h : d.pos ≤ offMax) : d.write [] = some d :=
  write_eq_some.2 ⟨h, by rw [Image.patch_nil]; rfl⟩

/-- Writing in two parts. -/
theorem write_append {bs₁ bs₂ : List UInt8} (h : bs₁ ++ bs₂ = bs) :
    (d.write bs₁ >>= fun d => d.write bs₂) = d.write bs := by
  subst h
  unfold write
  rw [List.length_append]
  by_cases h1 : d.pos + bs₁.length ≤ offMax
  · rw [if_pos h1, Option.bind_eq_bind, Option.bind_some]
    dsimp only
    rw [Image.patch_append, Nat.add_assoc]
  · rw [if_neg h1, if_neg (by omega)]; rfl

end Descriptor
