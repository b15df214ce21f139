/-
  One device under both programs.

  `ltils.c` and `rewrite.c` share the layout of the device.  Each mount of it is
  by one of them, and the next one by either.

    - `StoreProgram.either`: two programs that are a store of the same files are
      one together;
    - `either_refines_store`: so are these two, over all mounts, in any order;
    - `answers_agree_iff`: they list the same names, and answer the same lengths
      where these fit `uint32_t`.
-/
import NvmfHdfs.Lib.Either
import NvmfHdfs.Ltils.FileStore
import NvmfHdfs.Ltils.Lifetime
import NvmfHdfs.Rewrite.RecordStore
import NvmfHdfs.Rewrite.View

namespace Operations

open Machine (Guard eitherOk eitherEvent either_cases lefts rights)

variable {σ σ' χ χ' ρ ρ' μ μ' κ : Type}

/-- Starting the program whose memory is given. -/
def startEither (start : μ → Image → Option σ) (start' : μ' → Image → Option σ') :
    μ ⊕ μ' → Image → Option (σ ⊕ σ')
  | .inl memory, m => (start memory m).map .inl
  | .inr memory, m => (start' memory m).map .inr

theorem startEither_cases {start : μ → Image → Option σ} {start' : μ' → Image → Option σ'}
    {memory : μ ⊕ μ'} {m : Image} {s : σ ⊕ σ'} (h : startEither start start' memory m = some s) :
    (∃ x s₁, memory = .inl x ∧ s = .inl s₁ ∧ start x m = some s₁) ∨
      ∃ x s₂, memory = .inr x ∧ s = .inr s₂ ∧ start' x m = some s₂ := by
  cases memory with
  | inl x =>
    obtain ⟨s₁, hs, rfl⟩ := Option.map_eq_some_iff.1 h
    exact .inl ⟨x, s₁, rfl, rfl, hs⟩
  | inr x =>
    obtain ⟨s₂, hs, rfl⟩ := Option.map_eq_some_iff.1 h
    exact .inr ⟨x, s₂, rfl, rfl, hs⟩

variable [DecidableEq κ] {M : Machine σ χ ρ} {N : Machine σ' χ' ρ'} {ok : Guard σ χ ρ}
  {ok' : Guard σ' χ' ρ'} {disk : σ → Image} {disk' : σ' → Image} {start : μ → Image → Option σ}
  {start' : μ' → Image → Option σ'} {R : Regions κ}

/-- **Two programs that are a store of the same files** are one, whichever is started, if each can
    be started on what the other leaves. -/
def StoreProgram.either (P : StoreProgram M ok disk start R)
    (Q : StoreProgram N ok' disk' start' R) (header : P.header = Q.header)
    (fromP : ∀ {tr s m memory s'}, P.Inv tr s → (∀ a < P.header, m a = disk s a) →
      start' memory m = some s' → Q.Inv [] s')
    (fromQ : ∀ {tr s m memory s'}, Q.Inv tr s → (∀ a < Q.header, m a = disk' s a) →
      start memory m = some s' → P.Inv [] s') :
    StoreProgram (M.either N) (eitherOk ok ok') (Sum.elim disk disk') (startEither start start')
      R where
  Inv tr s := match s with
    | .inl s => P.Inv (lefts tr) s
    | .inr s => Q.Inv (rights tr) s
  event := eitherEvent P.event Q.event
  header := P.header
  inv_step := by
    intro tr s c r s' H hok hstep
    rcases either_cases hstep with ⟨s, c, r, s', rfl, rfl, rfl, rfl, hst⟩ |
      ⟨s, c, r, s', rfl, rfl, rfl, rfl, hst⟩
    · exact P.inv_step H hok hst
    · exact Q.inv_step H hok hst
  header_step := by
    intro tr s c r s' H hok hstep a ha
    rcases either_cases hstep with ⟨s, c, r, s', rfl, rfl, rfl, rfl, hst⟩ |
      ⟨s, c, r, s', rfl, rfl, rfl, rfl, hst⟩
    · exact P.header_step H hok hst a ha
    · exact Q.header_step H hok hst a (header ▸ ha)
  silent := by
    intro tr s c r s' H hok hstep he
    rcases either_cases hstep with ⟨s, c, r, s', rfl, rfl, rfl, rfl, hst⟩ |
      ⟨s, c, r, s', rfl, rfl, rfl, rfl, hst⟩
    · exact P.silent H hok hst he
    · exact Q.silent H hok hst he
  matched := by
    intro tr s c r s' op bs H hok hstep he
    rcases either_cases hstep with ⟨s, c, r, s', rfl, rfl, rfl, rfl, hst⟩ |
      ⟨s, c, r, s', rfl, rfl, rfl, rfl, hst⟩
    · exact P.matched H hok hst he
    · exact Q.matched H hok hst he
  disk_start := by
    intro m memory s hm
    rcases startEither_cases hm with ⟨x, s, rfl, rfl, hs⟩ | ⟨x, s, rfl, rfl, hs⟩
    · exact P.disk_start hs
    · exact Q.disk_start hs
  inv_start := by
    intro tr s m memory s' H hm hstart
    rcases startEither_cases hstart with ⟨x, s', rfl, rfl, hs⟩ | ⟨x, s', rfl, rfl, hs⟩
    · cases s with
      | inl s => exact P.inv_start H hm hs
      | inr s => exact fromQ H (header ▸ hm) hs
    · cases s with
      | inl s => exact fromP H hm hs
      | inr s => exact Q.inv_start H (header ▸ hm) hs

end Operations

namespace Programs

open CInt Layout Path Records Operations
open Machine (eitherOk eitherEvent)
open Rewrite (superBlock superBlock_congr areas recordSlot lengthOf blankDevice noRecord)

variable {sb : SuperBlock} {image : Image} {s : Rewrite.Lfs ⊕ Ltils.Lfs}

/-! ## Both programs -/

/-- Whichever program has mounted the device. -/
def system : Machine (Rewrite.Lfs ⊕ Ltils.Lfs) (Rewrite.Call ⊕ Ltils.Call)
    (Rewrite.Reply ⊕ Ltils.Reply) := Rewrite.system.either Ltils.system

/-- The image of the device. -/
def disk : Rewrite.Lfs ⊕ Ltils.Lfs → Image := Sum.elim (fun s => s.fd.image) fun s => s.fd.image

/-- `main` of either program; `ltils.c` has the table that `malloc` gives it. -/
def start : Unit ⊕ (ℕ → Ltils.FileDirectory) → Image → Option (Rewrite.Lfs ⊕ Ltils.Lfs) :=
  startEither Rewrite.start Ltils.start

/-- The calls of a store, of either program. -/
def storeOk : Machine.Guard (Rewrite.Lfs ⊕ Ltils.Lfs) (Rewrite.Call ⊕ Ltils.Call)
    (Rewrite.Reply ⊕ Ltils.Reply) := eitherOk Rewrite.storeOk Ltils.fileOk

instance (tr : List (Machine.Event (Rewrite.Lfs ⊕ Ltils.Lfs) (Rewrite.Call ⊕ Ltils.Call)
    (Rewrite.Reply ⊕ Ltils.Reply))) (s : Rewrite.Lfs ⊕ Ltils.Lfs) (c : Rewrite.Call ⊕ Ltils.Call) :
    Decidable (storeOk tr s c) := inferInstanceAs (Decidable (eitherOk _ _ tr s c))

/-- What they ask of the store. -/
def fileOp := eitherEvent Rewrite.fileOp Ltils.fileOp

/-- `main` of either program on a device with the superblock `sb`. -/
theorem storeMount_of {m : Image} {memory : Unit} {s : Rewrite.Lfs} (hm : superBlock m = sb)
    (hstart : Rewrite.start memory m = some s) : Rewrite.StoreMount sb [] s :=
  hm ▸ Rewrite.storeMount_main hstart

theorem slotMount_of {m : Image} {memory : ℕ → Ltils.FileDirectory} {s : Ltils.Lfs}
    (hm : superBlock m = sb) (hstart : Ltils.start memory m = some s) : Ltils.SlotMount sb [] s :=
  hm ▸ Ltils.slotMount_main hstart

/-- Both programs as a store of files that may crash. -/
def storeProgram (G : Geometry sb.s_dev_size sb.s_block_size) (hmb : 2 * mbSize < sb.s_block_size) :
    StoreProgram system storeOk disk start (areas sb hmb) :=
  (Rewrite.storeProgram G hmb).either (Ltils.fileProgram G hmb) rfl
    (fun {_ s} _ _ _ H hm hstart =>
      slotMount_of ((superBlock_congr hm).trans (Rewrite.StoreMount.superblock (s := s) H)) hstart)
    (fun {_ s} _ _ _ H hm hstart =>
      storeMount_of ((superBlock_congr hm).trans (Ltils.SlotMount.superblock (s := s) H)) hstart)

/-- **Either program reads what the other wrote.**  On a device whose size is an `int`, with a slot
    and with slots of more than 2 MB, every lifetime in which each mount is by `rewrite.c` or by
    `ltils.c`, and whose transfers are those of a store in both, reads and writes like one store of
    files with torn writes; and what either program wrote is there for both until a later write
    reaches it. -/
theorem either_refines_store {tr}
    (G : Geometry (superBlock image).s_dev_size (superBlock image).s_block_size)
    (hmb : 2 * mbSize < (superBlock image).s_block_size)
    (h : Lifetime system storeOk disk start image tr s) :
    Store.crashMachine.Does ((areas (superBlock image) hmb).contents image)
      (Simulation.historyOf (crashEvent system fileOp (areas (superBlock image) hmb)) tr)
      ((areas (superBlock image) hmb).contents (disk s)) ∧
    Store.Durable
      (Simulation.historyOf (crashEvent system fileOp (areas (superBlock image) hmb)) tr)
      ((areas (superBlock image) hmb).contents (disk s)) := by
  refine (storeProgram G hmb).run (fun memory s₀ hm => ?_) h
  rcases startEither_cases hm with ⟨x, s₁, rfl, rfl, hs⟩ | ⟨x, s₂, rfl, rfl, hs⟩
  · have H : Rewrite.StoreMount (superBlock image) [] s₁ := Rewrite.storeMount_main hs
    exact H
  · have H : Ltils.SlotMount (superBlock image) [] s₂ := Ltils.slotMount_main hs
    exact H

/-- A data file that `rewrite.c` wrote and released is found, read and written by `ltils.c`. -/
theorem either_refines_store_found : ∃ tr s,
    lifetimeExec system storeOk disk start (.inl ()) blankDevice
      [.call (.call (.inl (.open (dataPath 1)))), .call (.call (.inl (.write 6 [7, 8] 0))),
      .call (.call (.inl (.release 6 noRecord))), .restart (.inr Ltils.zeroFile),
      .call (.call (.inr (.getattr (dataPath 1)))), .call (.call (.inr (.open (dataPath 1)))),
      .call (.call (.inr (.read 3 2 0))), .call (.call (.inr (.write 3 [9] 0)))] =
        some (tr, s) ∧
    (Rewrite.blankAreas.contents (disk s) (.dataFile, 0)).slice 0 2 = [9, 8] ∧
    Store.crashMachine.Does (Rewrite.blankAreas.contents blankDevice)
      (Simulation.historyOf (crashEvent system fileOp Rewrite.blankAreas) tr)
      (Rewrite.blankAreas.contents (disk s)) ∧
    Store.Durable (Simulation.historyOf (crashEvent system fileOp Rewrite.blankAreas) tr)
      (Rewrite.blankAreas.contents (disk s)) := by
  obtain ⟨tr, s, he, hl, hbytes⟩ := Machine.exists_exec
    ((uOperation system).crashing disk start) (mountOk storeOk) (start (.inl ()) blankDevice)
    [.call (.call (.inl (.open (dataPath 1)))), .call (.call (.inl (.write 6 [7, 8] 0))),
      .call (.call (.inl (.release 6 noRecord))), .restart (.inr Ltils.zeroFile),
      .call (.call (.inr (.getattr (dataPath 1)))), .call (.call (.inr (.open (dataPath 1)))),
      .call (.call (.inr (.read 3 2 0))), .call (.call (.inr (.write 3 [9] 0)))]
    (fun _ s => (Rewrite.blankAreas.contents (disk s) (.dataFile, 0)).slice 0 2 = [9, 8])
    (by decide +kernel)
  exact ⟨tr, s, he, hbytes, either_refines_store
    ⟨⟨by decide +kernel, by decide +kernel⟩, by decide +kernel⟩ Rewrite.blank_slot ⟨.inl (), hl⟩⟩

/-! ## What both answer -/

/-- A length in a record is answered alike as `off_t` and as `uint32_t` if it is one. -/
theorem toU32_eq_toI64_iff {n : ℕ} (hn : n < 2 ^ 64) : (toU32 n : ℤ) = toI64 n ↔ n < 2 ^ 32 := by
  rw [toU32_natCast]
  unfold toI64
  split_ifs <;> omega

theorem lengthOf_lt (bs : List UInt8) (k : Kind) : lengthOf (BlockInfo.decode bs) k < 2 ^ 64 := by
  cases k <;> exact lt_of_lt_of_eq leValue_take_lt (by norm_num)

/-- `ltils.c` can be started where `rewrite.c` was. -/
theorem ltils_starts {m : Image} {s : Rewrite.Lfs} (file : ℕ → Ltils.FileDirectory)
    (hm : Rewrite.main m = some s) : ∃ t, Ltils.main m file = some t := by
  rw [Rewrite.main] at hm
  obtain ⟨x, h1, hm⟩ := Option.bind_eq_some_iff.1 hm
  rw [Ltils.main, bind_of_eq_some h1]
  dsimp only at hm ⊢
  split_ifs at hm ⊢ with hmagic
  exact ⟨_, rfl⟩

/-- **Both programs list the same names and answer the same lengths**, as long as these fit
    `uint32_t`.  In every state of every lifetime by `rewrite.c` of a device whose size is an
    `int`, with a slot, as long as transfers and releases stay out of the superblock and the
    bitmap, `ltils.c` can be started on the device as it is, whatever `malloc` leaves in its table.
    Its `lfs_readdir` lists the root as that of `rewrite.c` does; and its `lfs_getattr` has the
    same answer for a path exactly if the length in the record that is found, if any, is less than
    `2 ^ 32`. -/
theorem answers_agree_iff {tr : Rewrite.History} {s : Rewrite.Lfs}
    (G : Geometry (superBlock image).s_dev_size (superBlock image).s_block_size)
    (h : Rewrite.Life image (Machine.crashOk Rewrite.lifeOk) tr s)
    (file : ℕ → Ltils.FileDirectory) :
    ∃ t, Ltils.main s.fd.image file = some t ∧
      (Ltils.lfsReaddir t ['/']).map Prod.fst = (Rewrite.lfsReaddir s ['/']).map Prod.fst ∧
      ∀ path k b, parsePath path = some (k, b) →
        ((Ltils.lfsGetattrr t path).map Prod.fst = (Rewrite.lfsGetattrr s path).map Prod.fst ↔
          ∀ i ∈ recordSlot s b, lengthOf (infoAt s.fd.image s.infoOff i) k < 2 ^ 32) := by
  have hbs : (superBlock image).s_block_size < 2 ^ 31 := by
    have := G.slot
    have := G.small
    omega
  have H := Rewrite.lifeInv_run hbs h
  have S := H.sound
  have hG : Geometry s.dev_size s.block_size := by rw [H.dev_size, H.block_size]; exact G
  -- both are started on the device as it is
  obtain ⟨tables, s₀, hm, -⟩ := h
  obtain ⟨t₀, hm, -⟩ := Option.map_eq_some_iff.1 hm
  obtain ⟨r, hr⟩ := Option.isSome_iff_exists.1 (Rewrite.main_restarts hm H.superblock)
  obtain ⟨t, ht⟩ := ltils_starts file hr
  obtain ⟨hd, hb, -⟩ := Ltils.main_sizes ht
  have hsb : superBlock s.fd.image = superBlock image := superBlock_congr H.superblock
  have hdev : t.dev_size = s.dev_size := by rw [hd, hsb, H.dev_size]
  have hblock : t.block_size = s.block_size := by rw [hb, hsb, H.block_size]
  have himage : t.fd.image = s.fd.image := by rw [Ltils.main_eq_some ht]
  have hnum : t.num = s.num := by rw [Ltils.Lfs.num, Rewrite.Lfs.num, hdev, hblock]
  have hGt : Geometry t.dev_size t.block_size := by rw [hdev, hblock]; exact hG
  have hcount : s.count = s.num := S.count_eq hG
  have hinfo : s.infoOff = infoStart s.num := by
    rw [Rewrite.Lfs.infoOff, hG.infoOffset_eq, Option.getD_some, Rewrite.Lfs.num]
  refine ⟨t, ht, ?_, fun path k b hp => ?_⟩
  · rw [Ltils.readdir_answer hGt, S.readdir_answer hG, himage, hnum, hcount, hinfo]
  · rw [Ltils.getattr_answer hGt hp, S.getattr_answer hG hp, himage, hnum, recordSlot, hcount,
      hinfo]
    cases Rewrite.lookup s.fd.image (infoStart s.num) s.num b with
    | none => simp
    | some i =>
      rw [Option.elim_some, Option.elim_some]
      have hlength := toU32_eq_toI64_iff (lengthOf_lt (s.fd.image.slice
        (infoStart s.num + i * sizeofBlockInfo) sizeofBlockInfo) k)
      simpa [infoAt] using hlength

/-- After a data file was written and released. -/
theorem answers_agree_iff_released : ∃ tr s, Rewrite.lifeExec Rewrite.zeroTables blankDevice
      [.call (.call (.open (dataPath 1))), .call (.call (.write 6 [7, 8] 0)),
      .call (.call (.release 6 noRecord))] = some (tr, s) ∧ recordSlot s 1 = some 0 ∧
    ∃ t, Ltils.main s.fd.image Ltils.zeroFile = some t ∧
      (Ltils.lfsReaddir t ['/']).map Prod.fst = (Rewrite.lfsReaddir s ['/']).map Prod.fst ∧
      ∀ path k b, parsePath path = some (k, b) →
        ((Ltils.lfsGetattrr t path).map Prod.fst = (Rewrite.lfsGetattrr s path).map Prod.fst ↔
          ∀ i ∈ recordSlot s b, lengthOf (infoAt s.fd.image s.infoOff i) k < 2 ^ 32) := by
  obtain ⟨tr, s, he, hl, hslot⟩ := Machine.exists_exec Rewrite.lifetime
    (Machine.crashOk Rewrite.lifeOk) (Rewrite.mainOn Rewrite.zeroTables blankDevice)
    [.call (.call (.open (dataPath 1))), .call (.call (.write 6 [7, 8] 0)),
      .call (.call (.release 6 noRecord))]
    (fun _ s => recordSlot s 1 = some 0) (by decide +kernel)
  exact ⟨tr, s, he, hslot, answers_agree_iff
    ⟨⟨by decide +kernel, by decide +kernel⟩, by decide +kernel⟩ ⟨Rewrite.zeroTables, hl⟩
    Ltils.zeroFile⟩

end Programs
