/-
  Reading a file in pieces.

  A call of `fread` into a buffer of `n` bytes delivers some of the bytes that
  are left of the file: at most `n`, and none only at the end.  How many it
  delivers otherwise is open; an `Fread n` is one choice for every call of a
  loop.

    - `Fread.copy`: the loop `while(len=fread(..)) fwrite(..)`;
    - `Fread.copy_eq`: whatever the choice, it writes the bytes as one.
-/
import NvmfHdfs.Lib.Descriptor

/-- What the calls of `fread` in a loop deliver: the number of bytes, by the number of the
    call and the bytes left. -/
structure Fread (n : ℕ) where
  count : ℕ → List UInt8 → ℕ
  le_size : ∀ i bs, count i bs ≤ n
  le_left : ∀ i bs, count i bs ≤ bs.length
  pos : ∀ i bs, bs ≠ [] → 0 < count i bs

namespace Fread
variable {n : ℕ}

/-- A buffer filled as far as the file goes. -/
def full (hn : 0 < n) : Fread n where
  count _ bs := min n bs.length
  le_size _ _ := min_le_left _ _
  le_left _ _ := min_le_right _ _
  pos _ _ h := lt_min hn (List.length_pos_iff.2 h)

theorem count_full (hn : 0 < n) (i : ℕ) (bs : List UInt8) :
    (full hn).count i bs = min n bs.length := rfl

variable (F : Fread n) {i : ℕ} {bytes : List UInt8} {disk : Descriptor}

theorem count_nil (i : ℕ) : F.count i [] = 0 := Nat.le_zero.1 (F.le_left i [])

theorem count_eq_zero : F.count i bytes = 0 ↔ bytes = [] := by
  constructor
  · intro h
    by_contra hne
    exact (F.pos i bytes hne).ne' h
  · rintro rfl
    exact F.count_nil i

/-- Copying to a descriptor, from call `i` on, in fewer than `k` turns. -/
def copy : ℕ → ℕ → List UInt8 → Descriptor → Option Descriptor
  | 0, _, _, _ => none
  | k + 1, i, bytes, disk =>
    let len := F.count i bytes
    if len = 0 then some disk else do
      let disk ← disk.write (bytes.take len)
      copy k (i + 1) (bytes.drop len) disk

/-- **Copying in pieces** writes the bytes one after the other, and ends. -/
theorem copy_eq : ∀ {k i : ℕ} {bytes : List UInt8} {disk : Descriptor}, bytes.length < k →
    disk.pos ≤ Descriptor.offMax → F.copy k i bytes disk = disk.write bytes
  | k + 1, i, bytes, disk, hk, hpos => by
    rw [copy]
    by_cases hlen : F.count i bytes = 0
    · obtain rfl := F.count_eq_zero.1 hlen
      rw [if_pos hlen, Descriptor.write_nil hpos]
    · have hle := F.le_left i bytes
      have htake : (bytes.take (F.count i bytes)).length = F.count i bytes := by
        rw [List.length_take, min_eq_left hle]
      have hdrop : (bytes.drop (F.count i bytes)).length < k := by
        rw [List.length_drop]; omega
      rw [if_neg hlen, ← Descriptor.write_append (List.take_append_drop (F.count i bytes) bytes)]
      refine Option.bind_congr fun disk' hw => ?_
      obtain ⟨hle', rfl⟩ := Descriptor.write_eq_some.1 hw
      exact copy_eq hdrop hle'

end Fread
