/-
  What is seen of a device after it is mounted again.

  `lfs_getattr` and `lfs_readdir` read the records and the bitmap from the device
  each time they are called; the tables they fill have no part in what they
  answer.

    - `getattr_congr`, `readdir_congr`: the answers depend on the device and its
      sizes only;
    - `main_restarts`: a device with the superblock of one that was mounted can
      be mounted;
    - `restart_same_view`: in every state of every lifetime the device can be
      mounted again, from whatever a crash leaves of it, and unmounting it
      changes no answer.
-/
import NvmfHdfs.Rewrite.Lifetime
import NvmfHdfs.Rewrite.Observer

namespace Rewrite

open CInt Layout Bitmap Path Records Operations

variable {s s' t : Lfs} {image m : Image} {tr : History} {path : List Char} {q : Request Call}
  {kept : ℕ → Bool}

/-! ## The answers -/

/-- Steps with the same value, of which the rest uses nothing else. -/
theorem map_bind_fst {α β γ τ : Type} {x y : Option (α × τ)} {f g : α × τ → Option β} {v : β → γ}
    (h : x.map Prod.fst = y.map Prod.fst) (hf : ∀ a s t, (f (a, s)).map v = (g (a, t)).map v) :
    (x >>= f).map v = (y >>= g).map v := by
  cases x with
  | none =>
    cases y with
    | none => rfl
    | some b => cases h
  | some a =>
    cases y with
    | none => cases h
    | some b =>
      obtain ⟨a₁, s⟩ := a
      obtain ⟨b₁, t⟩ := b
      obtain rfl : a₁ = b₁ := Option.some.inj h
      exact hf a₁ s t

/-- The same device with the same sizes. -/
structure SameDevice (s t : Lfs) : Prop where
  dev_size : t.dev_size = s.dev_size
  block_size : t.block_size = s.block_size
  image : t.fd.image = s.fd.image

namespace SameDevice
variable (D : SameDevice s t)
include D

/-- The metadata is read after a seek. -/
theorem readUsed : readUsed t = readUsed s := by
  have hsizes : t.biLen = s.biLen ∧ t.bitSize = s.bitSize := by
    unfold Lfs.biLen Lfs.bitSize Lfs.num
    rw [D.dev_size, D.block_size]
    exact ⟨rfl, rfl⟩
  unfold Rewrite.readUsed Descriptor.lseek
  rw [hsizes.1, hsizes.2, D.dev_size, D.block_size, D.image]

theorem getattr_congr : (lfsGetattrr t path).map Prod.fst = (lfsGetattrr s path).map Prod.fst := by
  unfold lfsGetattrr
  rw [D.readUsed]
  refine map_bind_congr fun x => map_bind_congr fun y => map_bind_congr fun r => ?_
  cases r <;> rfl

omit D in
/-- The names do not depend on the table they are printed into. -/
theorem nameLoop_congr {σ : Type} {put : ℕ → List Char → σ → σ} {k : Kind} {bi : List UInt8}
    {l : List ℕ} {s t : σ} :
    (nameLoop put k bi l t).map Prod.fst = (nameLoop put k bi l s).map Prod.fst := by
  induction l generalizing s t with
  | nil => rfl
  | cons i l ih =>
    unfold nameLoop
    refine map_bind_congr fun r => ?_
    dsimp only
    split_ifs
    · exact map_bind_fst ih fun _ _ _ => rfl
    · rfl

theorem readdir_congr : (lfsReaddir t path).map Prod.fst = (lfsReaddir s path).map Prod.fst := by
  unfold lfsReaddir
  rw [D.readUsed]
  refine map_bind_congr fun x => ?_
  dsimp only
  split_ifs
  · rfl
  · refine map_bind_congr fun y => ?_
    exact map_bind_fst nameLoop_congr fun _ _ _ => rfl

end SameDevice

/-! ## Mounting again -/

/-- Whether the bitmap can be read depends on the sizes only. -/
theorem readBitmap_isSome (fd fd' : Descriptor) {dev bs : ℤ} :
    (readBitmap fd dev bs).isSome = (readBitmap fd' dev bs).isSome := by
  unfold readBitmap
  cases readBitmapSize dev bs with
  | none => rfl
  | some len =>
    simp only [Option.bind_eq_bind, Option.bind_some, lseek_bitmapOffset]
    unfold Descriptor.read
    dsimp only
    split_ifs <;> rfl

/-- A device that has the superblock of one that was mounted can be mounted. -/
theorem main_restarts (hm : main image = some s) (h : ∀ a < bitmapOffset, m a = image a) :
    (main m).isSome = true := by
  have hsb : m.slice 0 sizeofSuperBlock = image.slice 0 sizeofSuperBlock :=
    Image.slice_congr fun a _ ha => h a (by unfold bitmapOffset; omega)
  rw [main] at hm ⊢
  obtain ⟨⟨bs, fd⟩, h1, hm⟩ := Option.bind_eq_some_iff.1 hm
  obtain ⟨hle, hbs, -⟩ := Descriptor.read_eq_some.1 h1
  have h1' : (⟨m, 0⟩ : Descriptor).read sizeofSuperBlock = some (bs, ⟨m, 0 + sizeofSuperBlock⟩) :=
    Descriptor.read_eq_some.2 ⟨hle, hbs.trans hsb.symm, rfl⟩
  rw [bind_of_eq_some h1']
  dsimp only at hm ⊢
  split_ifs at hm ⊢ with hmagic
  obtain ⟨⟨p, fd'⟩, h2, -⟩ := Option.bind_eq_some_iff.1 hm
  have hread := Option.isSome_of_mem h2
  rw [readBitmap_isSome _ ⟨m, 0 + sizeofSuperBlock⟩] at hread
  obtain ⟨x, hx⟩ := Option.isSome_iff_exists.1 hread
  rw [bind_of_eq_some hx]
  rfl

/-- **Mounting again.**  In every state of every lifetime of a device whose block size is an `int`,
    as long as transfers and releases stay out of the superblock and the bitmap, the device can be
    mounted, and so it can from whatever a crash during such a request leaves of it, with any
    memory; and if nothing crashed, `lfs_getattr` and `lfs_readdir` answer for every path as they
    did before. -/
theorem restart_same_view (hbs : (superBlock image).s_block_size < 2 ^ 31)
    (h : Life image (Machine.crashOk lifeOk) tr s) (tables : Tables) :
    (∃ t, lifetime.step s (.restart tables) = some (none, t) ∧ ∀ path,
      (lfsGetattrr t path).map Prod.fst = (lfsGetattrr s path).map Prod.fst ∧
      (lfsReaddir t path).map Prod.fst = (lfsReaddir s path).map Prod.fst) ∧
    ∀ q kept, lifeOk s q → ((uOperation system).step s q).isSome = true →
      (lifetime.step s (.crash q kept tables)).isSome = true := by
  have H := lifeInv_run hbs h
  obtain ⟨tables₀, s₀, hm, -⟩ := h
  obtain ⟨t₀, hm, -⟩ := Option.map_eq_some_iff.1 hm
  have hstart : ∀ m : Image, (∀ a < bitmapOffset, m a = image a) →
      ∃ t, mainOn tables m = some t := by
    intro m hsuper
    obtain ⟨t, ht⟩ := Option.isSome_iff_exists.1 (main_restarts hm hsuper)
    exact ⟨_, by rw [mainOn, ht]; rfl⟩
  constructor
  · obtain ⟨t, ht⟩ := hstart s.fd.image H.superblock
    have M := mounted_of_main ht
    have hsb : superBlock s.fd.image = superBlock image := superBlock_congr H.superblock
    have D : SameDevice s t := by
      refine ⟨?_, ?_, M.disk⟩
      · rw [M.dev_size, hsb, H.dev_size]
      · rw [M.block_size, hsb, H.block_size]
    exact ⟨t, Machine.crashing_restart_of ht, fun path => ⟨D.getattr_congr, D.readdir_congr⟩⟩
  · intro q kept hok hq
    obtain ⟨⟨y, s'⟩, hst⟩ := Option.isSome_iff_exists.1 hq
    have K := kept_of_request H.sound H.covered hok hst
    obtain ⟨t, ht⟩ := hstart (Image.torn kept s.fd.image s'.fd.image) fun a ha => by
      rw [Image.torn_of_eq (K.superblock a ha), H.superblock a ha]
    exact Option.isSome_iff_exists.2 ⟨_, Machine.crashing_crash_of hst ht⟩

/-- After a data file, its release, and a crash while the next one is opened. -/
theorem restart_same_view_crash : ∃ tr s, lifeExec zeroTables blankDevice
      [.call (.call (.open (dataPath 1))), .call (.call (.write 6 [7] 0)),
      .call (.call (.release 6 noRecord)),
      .crash (.call (.open (dataPath 2))) (fun a => a % 2 = 1) zeroTables] = some (tr, s) ∧
    (∃ t, lifetime.step s (.restart zeroTables) = some (none, t) ∧ ∀ path,
      (lfsGetattrr t path).map Prod.fst = (lfsGetattrr s path).map Prod.fst ∧
      (lfsReaddir t path).map Prod.fst = (lfsReaddir s path).map Prod.fst) ∧
    ∀ q kept, lifeOk s q → ((uOperation system).step s q).isSome = true →
      (lifetime.step s (.crash q kept zeroTables)).isSome = true := by
  obtain ⟨tr, s, he, hl, -⟩ := Machine.exists_exec lifetime (Machine.crashOk lifeOk)
    (mainOn zeroTables blankDevice)
    [.call (.call (.open (dataPath 1))), .call (.call (.write 6 [7] 0)),
      .call (.call (.release 6 noRecord)),
      .crash (.call (.open (dataPath 2))) (fun a => a % 2 = 1) zeroTables]
    (fun _ _ => True) (by decide +kernel)
  exact ⟨tr, s, he, restart_same_view (by decide +kernel) ⟨zeroTables, hl⟩ zeroTables⟩

end Rewrite
