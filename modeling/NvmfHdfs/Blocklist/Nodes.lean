/-
  Several data nodes copying at the same time.

  Every data node runs `write2Client.cpp` on records of its own and opens the
  device by itself, so that each has a stream with a position and a buffer of
  its own; the device is one.  A node moves by a call of `write2disk` (up to
  the seek), by an `fread` and its `fwrite`, or when its stream stores some of
  the bytes in the buffer; who moves next is open.

    - `Copier.step`, `nodes`: the moves of a node, and of many;
    - `Copier.left`: what a node has still to store;
    - `copiers_run`: the data nodes are writers of one image (`Writers`), and
      none ever stops before its records are done;
    - `parallel_copies`: every schedule ends, with every block in its slot.
-/
import NvmfHdfs.Blocklist.Copy
import NvmfHdfs.Lib.Machine
import NvmfHdfs.Lib.Writers

namespace Blocklist

open Image

variable {ν : Type} {files : List Char → Option (List UInt8)}

/-! ## The machine -/

/-- A data node at work: the calls it has still to make, the bytes left of the file it has open,
    the position up to which its stream is stored and the bytes buffered behind. -/
structure Copier where
  calls : List CopyCall
  fp : Option (List UInt8)
  pos : ℕ
  buffer : List UInt8

/-- A move of a data node. -/
inductive Move where
  /-- `fopen(path)` and `fseek(disk)`, which needs an empty buffer -/
  | call
  /-- an `fread` of `n` bytes and their `fwrite`; at the end of the file, `fclose` -/
  | copy (n : ℕ)
  /-- `n` bytes of the buffer are stored -/
  | store (n : ℕ)

namespace Copier

/-- One move of a data node on the device. -/
def step (files : List Char → Option (List UInt8)) (image : Image) (nd : Copier) :
    Move → Option (Image × Copier)
  | .call =>
    match nd.calls, nd.fp, nd.buffer with
    | c :: cs, none, [] => do
      let path ← trimPath c.path_vec
      let fp ← files path
      let disk : Descriptor := ⟨image, nd.pos⟩
      -- `fseek` to a negative position fails
      let disk ← if 0 ≤ c.blk_id then disk.lseek (c.blk_id * blockSize).toNat else some disk
      some (image, ⟨cs, some fp, disk.pos, []⟩)
    | _, _, _ => none
  | .copy n => do
    let fp ← nd.fp
    if n = 0 then
      if fp = [] then some (image, { nd with fp := none }) else none
    else if n ≤ 1024 ∧ n ≤ fp.length then
      some (image, { nd with fp := some (fp.drop n), buffer := nd.buffer ++ fp.take n })
    else none
  | .store n =>
    if 0 < n ∧ n ≤ nd.buffer.length then do
      let disk : Descriptor := ⟨image, nd.pos⟩
      let disk ← disk.write (nd.buffer.take n)
      some (disk.image, { nd with pos := disk.pos, buffer := nd.buffer.drop n })
    else none

/-- A node that has made all its calls and stored everything. -/
def Finished (nd : Copier) : Prop := nd.calls = [] ∧ nd.fp = none ∧ nd.buffer = []

instance (nd : Copier) : Decidable nd.Finished :=
  decidable_of_iff (nd.calls = [] ∧ nd.fp.isNone = true ∧ nd.buffer = []) (by
    rw [Option.isNone_iff_eq_none]; rfl)

/-- What a node has still to store. -/
def left (files : List Char → Option (List UInt8)) (nd : Copier) : List (ℕ × List UInt8) :=
  (nd.pos, nd.buffer ++ nd.fp.getD []) :: nd.calls.map (CopyCall.write files)

/-- The calls are in order, and so is the place of the open file. -/
structure Ok (files : List Char → Option (List UInt8)) (nd : Copier) : Prop where
  calls : ∀ c ∈ nd.calls, c.Ok files
  room : nd.pos + (nd.buffer ++ nd.fp.getD []).length ≤ Descriptor.offMax

/-- The moves that a call takes at most. -/
def callWork (files : List Char → Option (List UInt8)) (c : CopyCall) : ℕ :=
  2 * ((c.bytes files).getD []).length + 2

/-- The moves that the open file takes at most. -/
def fileWork : Option (List UInt8) → ℕ
  | none => 0
  | some fp => 2 * fp.length + 1

/-- The moves that are left at most. -/
def work (files : List Char → Option (List UInt8)) (nd : Copier) : ℕ :=
  (nd.calls.map (callWork files)).sum + fileWork nd.fp + nd.buffer.length

end Copier

/-- The device and the data nodes. -/
structure Cluster (ν : Type) where
  image : Image
  node : ν → Copier

/-- The data nodes, each with the files it has, moving one at a time. -/
def nodes [DecidableEq ν] (files : ν → List Char → Option (List UInt8)) :
    Machine (Cluster ν) (ν × Move) Unit where
  step s x := do
    let (image, nd) ← (s.node x.1).step (files x.1) s.image x.2
    some ((), ⟨image, Function.update s.node x.1 nd⟩)

/-- The nodes before the first move. -/
def startAll (image : Image) (calls : ν → List CopyCall) : Cluster ν :=
  ⟨image, fun v => ⟨calls v, none, 0, []⟩⟩

/-! ## One move -/

namespace Copier
variable {image image' : Image} {nd nd' : Copier} {c : CopyCall} {cs : List CopyCall} {x : Move}

/-- What a move of a node is: the next call, a piece of its file, the end of it, or a store. -/
inductive Moved (files : List Char → Option (List UInt8)) (image : Image) :
    Copier → Image → Copier → Prop
  | call {c cs pos bs} (hbs : c.bytes files = some bs) (hok : c.Ok files) :
      Moved files image ⟨c :: cs, none, pos, []⟩ image ⟨cs, some bs, c.slot, []⟩
  | copy {cs fp pos buffer n} (hn : 0 < n) (hle : n ≤ fp.length) :
      Moved files image ⟨cs, some fp, pos, buffer⟩ image
        ⟨cs, some (fp.drop n), pos, buffer ++ fp.take n⟩
  | close {cs pos buffer} :
      Moved files image ⟨cs, some [], pos, buffer⟩ image ⟨cs, none, pos, buffer⟩
  | store {cs fp pos buffer n} (hn : 0 < n) (hle : n ≤ buffer.length) :
      Moved files image ⟨cs, fp, pos, buffer⟩ (image.patch pos (buffer.take n))
        ⟨cs, fp, pos + (buffer.take n).length, buffer.drop n⟩

theorem moved_of_step (hok : nd.Ok files) (h : nd.step files image x = some (image', nd')) :
    Moved files image nd image' nd' := by
  obtain ⟨calls, fp, pos, buffer⟩ := nd
  cases x with
  | call =>
    match calls, fp, buffer with
    | c :: cs, none, [] =>
      have hc := hok.calls c List.mem_cons_self
      obtain ⟨path, hpath, h⟩ := Option.bind_eq_some_iff.1 h
      obtain ⟨bs, hbs, h⟩ := Option.bind_eq_some_iff.1 h
      dsimp only at h
      rw [if_pos hc.nonneg] at h
      obtain ⟨disk, hdisk, h⟩ := Option.bind_eq_some_iff.1 h
      obtain ⟨-, rfl⟩ := Descriptor.lseek_eq_some.1 hdisk
      obtain ⟨rfl, rfl⟩ := Prod.mk.inj (Option.some.inj h)
      have hslot : (c.blk_id * blockSize).toNat = c.slot := by
        obtain ⟨id, hid⟩ := Int.eq_ofNat_of_zero_le hc.nonneg
        rw [CopyCall.slot, hid, ← Nat.cast_mul, Int.toNat_natCast, Int.toNat_natCast]
      have hbytes : c.bytes files = some bs := by
        rw [CopyCall.bytes_eq, hpath, Option.bind_some, hbs]
      dsimp only
      rw [hslot]
      exact .call hbytes hc
    | [], _, _ => cases h
    | _ :: _, some _, _ => cases h
    | _ :: _, none, _ :: _ => cases h
  | copy n =>
    obtain ⟨fp, rfl, h⟩ := Option.bind_eq_some_iff.1 h
    split_ifs at h with h0 hnil hn
    · subst hnil
      obtain ⟨rfl, rfl⟩ := Prod.mk.inj (Option.some.inj h)
      exact .close
    · obtain ⟨rfl, rfl⟩ := Prod.mk.inj (Option.some.inj h)
      exact .copy (Nat.pos_of_ne_zero h0) hn.2
  | store n =>
    rw [step] at h
    split_ifs at h with hn
    obtain ⟨disk, hdisk, h⟩ := Option.bind_eq_some_iff.1 h
    obtain ⟨-, rfl⟩ := Descriptor.write_eq_some.1 hdisk
    obtain ⟨rfl, rfl⟩ := Prod.mk.inj (Option.some.inj h)
    exact .store hn.1 hn.2

/-- A node that has not finished can move. -/
theorem can_move (image : Image) (hok : nd.Ok files) (h : ¬ nd.Finished) :
    ∃ x, (nd.step files image x).isSome = true := by
  obtain ⟨calls, fp, pos, buffer⟩ := nd
  have hroom : pos + (buffer ++ fp.getD []).length ≤ Descriptor.offMax := hok.room
  rw [List.length_append] at hroom
  by_cases hbuf : buffer = []
  · subst hbuf
    cases fp with
    | some fp =>
      by_cases hfp : fp = []
      · subst hfp
        exact ⟨.copy 0, rfl⟩
      · have hlen : 0 < fp.length := List.length_pos_iff.2 hfp
        refine ⟨.copy 1, ?_⟩
        rw [step]
        dsimp only [Option.bind_eq_bind, Option.bind_some]
        rw [if_neg Nat.one_ne_zero, if_pos ⟨by decide, hlen⟩]
        rfl
    | none =>
      cases calls with
      | nil => exact absurd ⟨rfl, rfl, rfl⟩ h
      | cons c cs =>
        have hc := hok.calls c List.mem_cons_self
        obtain ⟨bs, hbs, -⟩ := hc.file
        obtain ⟨path, hpath, hfile⟩ := Option.bind_eq_some_iff.1 (c.bytes_eq.symm.trans hbs)
        have hslot := hc.slot_le
        obtain ⟨id, hid⟩ := Int.eq_ofNat_of_zero_le hc.nonneg
        have hseek : (c.blk_id * blockSize).toNat < Descriptor.offMax := by
          rw [CopyCall.slot, hid, Int.toNat_natCast] at hslot
          rw [hid, ← Nat.cast_mul, Int.toNat_natCast]
          omega
        have hlseek : (⟨image, pos⟩ : Descriptor).lseek (c.blk_id * blockSize).toNat =
            some ⟨image, (c.blk_id * blockSize).toNat⟩ := Descriptor.lseek_eq_some.2 ⟨hseek, rfl⟩
        refine ⟨.call, ?_⟩
        dsimp only [step]
        rw [CInt.bind_of_eq_some hpath, CInt.bind_of_eq_some hfile, if_pos hc.nonneg,
          CInt.bind_of_eq_some hlseek]
        rfl
  · have hlen : 0 < buffer.length := List.length_pos_iff.2 hbuf
    have hwrite : (⟨image, pos⟩ : Descriptor).write (buffer.take 1) =
        some ⟨image.patch pos (buffer.take 1), pos + (buffer.take 1).length⟩ := by
      refine Descriptor.write_eq_some.2 ⟨?_, rfl⟩
      rw [List.length_take]
      dsimp only
      omega
    refine ⟨.store 1, ?_⟩
    rw [step, if_pos ⟨Nat.one_pos, hlen⟩]
    dsimp only
    rw [CInt.bind_of_eq_some hwrite]
    rfl

/-- A move keeps a node in order. -/
theorem Moved.ok (hok : nd.Ok files) (h : Moved files image nd image' nd') : nd'.Ok files := by
  cases h with
  | call hbs hc =>
    have hslot := hc.slot_le
    have hlen := hc.length_le hbs
    refine ⟨fun c' hc' => hok.calls c' (List.mem_cons_of_mem _ hc'), ?_⟩
    dsimp only
    rw [List.nil_append, Option.getD_some]
    omega
  | copy hn hle =>
    refine ⟨hok.calls, ?_⟩
    have hroom := hok.room
    dsimp only at hroom ⊢
    rwa [Option.getD_some, List.append_assoc, List.take_append_drop]
  | close => exact ⟨hok.calls, hok.room⟩
  | @store _ fp pos buffer n hn hle =>
    refine ⟨hok.calls, ?_⟩
    have hroom := hok.room
    dsimp only at hroom ⊢
    rwa [← List.take_append_drop n buffer, List.append_assoc, List.length_append,
      ← Nat.add_assoc] at hroom

/-- A move leaves fewer moves. -/
theorem Moved.work_lt (h : Moved files image nd image' nd') : nd'.work files < nd.work files := by
  cases h with
  | call hbs hc =>
    simp only [work, fileWork, callWork, hbs, List.map_cons, List.sum_cons, Option.getD_some,
      List.length_nil]
    omega
  | copy hn hle =>
    simp only [work, fileWork, List.length_append, List.length_take, List.length_drop]
    omega
  | close => simp only [work, fileWork, List.length_nil]; omega
  | store hn hle => simp only [work, List.length_drop]; omega

end Copier

/-! ## Many moves -/

variable [DecidableEq ν] {fs : ν → List Char → Option (List UInt8)} {calls : ν → List CopyCall}
  {image t : Image} {s s' : Cluster ν} {v : ν} {x : Move}

/-- What the nodes write. -/
def writesOf (fs : ν → List Char → Option (List UInt8)) (calls : ν → List CopyCall) (v : ν) :
    List (ℕ × List UInt8) :=
  (calls v).map (CopyCall.write (fs v))

/-- The nodes are in order, and are writers of an image `t`. -/
structure CopyInv (fs : ν → List Char → Option (List UInt8)) (calls : ν → List CopyCall)
    (image t : Image) (s : Cluster ν) : Prop where
  ok : ∀ v, (s.node v).Ok (fs v)
  writers : Writers t image (writesOf fs calls) s.image fun v => (s.node v).left (fs v)

/-- A move of one node. -/
theorem moved_of_nodes (hok : ∀ v, (s.node v).Ok (fs v))
    (h : (nodes fs).step s (v, x) = some ((), s')) : ∃ image' nd,
    Copier.Moved (fs v) s.image (s.node v) image' nd ∧
      s' = ⟨image', Function.update s.node v nd⟩ := by
  obtain ⟨⟨image', nd⟩, hst, h⟩ := Option.bind_eq_some_iff.1 h
  obtain ⟨-, rfl⟩ := Prod.mk.inj (Option.some.inj h)
  exact ⟨image', nd, Copier.moved_of_step (hok v) hst, rfl⟩

/-- **A move keeps the invariant.** -/
theorem CopyInv.step (H : CopyInv fs calls image t s)
    (h : (nodes fs).step s (v, x) = some ((), s')) : CopyInv fs calls image t s' := by
  obtain ⟨image', nd, hmoved, rfl⟩ := moved_of_nodes H.ok h
  have hleft : (fun v' => (Function.update s.node v nd v').left (fs v')) =
      Function.update (fun v' => (s.node v').left (fs v')) v (nd.left (fs v)) :=
    funext fun v' => Function.apply_update (fun v' nd => nd.left (fs v')) s.node v nd v'
  refine ⟨?_, ?_⟩
  · exact (Function.forall_update_iff s.node fun v' nd => nd.Ok (fs v')).2
      ⟨hmoved.ok (H.ok v), fun v' _ => H.ok v'⟩
  · dsimp only
    rw [hleft]
    have hw := H.writers
    generalize hnd : s.node v = nd₀ at hmoved
    have hv : (fun v' => (s.node v').left (fs v')) v = nd₀.left (fs v) := by rw [← hnd]
    cases hmoved with
    | @call c cs pos bs hbs hc =>
      refine hw.next (p := pos) (hv.trans ?_)
      rw [Copier.left, Copier.left, List.map_cons, CopyCall.write, hbs]
      rfl
    | @copy cs fp pos buffer n hn hle =>
      have hsame : (Copier.mk cs (some (fp.drop n)) pos (buffer ++ fp.take n)).left (fs v) =
          (Copier.mk cs (some fp) pos buffer).left (fs v) := by
        simp only [Copier.left, Option.getD_some, List.append_assoc, List.take_append_drop]
      rwa [hsame, ← hv, Function.update_eq_self]
    | @close cs pos buffer =>
      have hsame : (Copier.mk cs none pos buffer).left (fs v) =
          (Copier.mk cs (some []) pos buffer).left (fs v) := rfl
      rwa [hsame, ← hv, Function.update_eq_self]
    | @store cs fp pos buffer n hn hle =>
      refine hw.store (hv.trans ?_)
      rw [Copier.left, ← List.append_assoc, List.take_append_drop]

omit [DecidableEq ν] in
/-- The nodes before their first move are in order. -/
theorem copyInv_start (hok : ∀ v, ∀ c ∈ calls v, c.Ok (fs v))
    (ht : ∀ v, Agrees t (writesOf fs calls v)) :
    CopyInv fs calls image t (startAll image calls) := by
  have hleft : ∀ v, ((startAll image calls).node v).left (fs v) =
      (0, []) :: writesOf fs calls v := fun v => rfl
  refine ⟨fun v => ⟨hok v, Nat.zero_le _⟩, .start (fun v => ?_) fun v a => ?_⟩
  · intro w hw
    rw [hleft] at hw
    rcases List.mem_cons.1 hw with rfl | hw
    · rfl
    · exact ht v w hw
  · rw [hleft, covers_skip]

variable [Fintype ν] {tr : List (Machine.Event (Cluster ν) (ν × Move) Unit)}

/-- The moves that are left of all nodes at most. -/
def totalWork (fs : ν → List Char → Option (List UInt8)) (s : Cluster ν) : ℕ :=
  ∑ v, (s.node v).work (fs v)

/-- **Every schedule** keeps the invariant and makes fewer moves than there is work. -/
theorem copiers_run (h₀ : CopyInv fs calls image t (startAll image calls))
    (h : (nodes fs).Run Machine.anyStep (startAll image calls) tr s) :
    CopyInv fs calls image t s ∧
      tr.length + totalWork fs s ≤ totalWork fs (startAll image calls) := by
  refine h.invariant (fun tr s => CopyInv fs calls image t s ∧
    tr.length + totalWork fs s ≤ totalWork fs (startAll image calls)) ⟨h₀, ?_⟩ ?_
  · rw [List.length_nil, Nat.zero_add]
  · rintro tr s ⟨v, x⟩ ⟨⟩ s' ⟨H, hle⟩ - hst
    refine ⟨H.step hst, ?_⟩
    obtain ⟨image', nd, hmoved, rfl⟩ := moved_of_nodes H.ok hst
    have hlt : totalWork fs ⟨image', Function.update s.node v nd⟩ < totalWork fs s := by
      refine Finset.sum_lt_sum ?_ ⟨v, Finset.mem_univ v, ?_⟩
      · refine fun v' _ => (Function.forall_update_iff s.node fun v' nd =>
          nd.work (fs v') ≤ (s.node v').work (fs v')).2 ⟨hmoved.work_lt.le, fun _ _ => le_rfl⟩ v'
      · dsimp only
        rw [Function.update_self]
        exact hmoved.work_lt
    rw [List.length_cons]
    omega

/-! ## Slots of their own -/

/-- Calls with different slot ids write apart from each other. -/
theorem CopyCall.Ok.apart {files' : List Char → Option (List UInt8)} {c c' : CopyCall}
    (h : c.Ok files) (h' : c'.Ok files') (hne : c.blk_id ≠ c'.blk_id) :
    Apart (c.write files) (c'.write files') := by
  obtain ⟨bs, hbs, hlen⟩ := h.file
  obtain ⟨bs', hbs', hlen'⟩ := h'.file
  have hnonneg := h.nonneg
  have hnonneg' := h'.nonneg
  simp only [Apart, CopyCall.write, hbs, hbs', Option.getD_some, CopyCall.slot]
  rcases Nat.lt_or_gt_of_ne (show c.blk_id.toNat ≠ c'.blk_id.toNat by omega) with hlt | hlt
  · have hmul := Nat.mul_le_mul_right blockSize hlt
    rw [Nat.succ_mul] at hmul
    left; omega
  · have hmul := Nat.mul_le_mul_right blockSize hlt
    rw [Nat.succ_mul] at hmul
    right; omega

/-- No slot id is given twice, on one node or on two. -/
structure DistinctSlots (calls : ν → List CopyCall) : Prop where
  node : ∀ v, ((calls v).map CopyCall.blk_id).Nodup
  nodes : ∀ v v', v ≠ v' → ∀ c ∈ calls v, ∀ c' ∈ calls v', c.blk_id ≠ c'.blk_id

omit [DecidableEq ν] in
/-- There is an image that holds what all nodes write. -/
theorem exists_target (hok : ∀ v, ∀ c ∈ calls v, c.Ok (fs v)) (hd : DistinctSlots calls) :
    ∃ t : Image, ∀ v, Agrees t (writesOf fs calls v) := by
  refine ⟨Image.patches (fun _ => 0) (Finset.univ.toList.flatMap (writesOf fs calls)),
    fun v w hw => ?_⟩
  refine slice_patches _ (List.pairwise_flatMap.2 ⟨fun v _ => ?_, ?_⟩)
    (List.mem_flatMap.2 ⟨v, Finset.mem_toList.2 (Finset.mem_univ v), hw⟩)
  · exact writes_apart (hok v) (hd.node v)
  · refine (Finset.nodup_toList _).imp fun {v v'} hne w hw w' hw' => ?_
    obtain ⟨c, hc, rfl⟩ := List.mem_map.1 hw
    obtain ⟨c', hc', rfl⟩ := List.mem_map.1 hw'
    exact (hok v c hc).apart (hok v' c' hc') (hd.nodes v v' hne c hc c' hc')

namespace CopyInv
variable (H : CopyInv fs calls image t s)
include H

omit [Fintype ν] in
/-- A node that has not finished can move. -/
theorem can_move (hv : ¬ (s.node v).Finished) : ∃ x, ((nodes fs).step s (v, x)).isSome = true := by
  obtain ⟨x, hx⟩ := Copier.can_move s.image (H.ok v) hv
  obtain ⟨y, hy⟩ := Option.isSome_iff_exists.1 hx
  refine ⟨x, ?_⟩
  dsimp only [nodes]
  rw [CInt.bind_of_eq_some hy]
  rfl

omit [DecidableEq ν] [Fintype ν] in
/-- A node that has finished has stored its files. -/
theorem stored {c : CopyCall} {bs : List UInt8} (ht : Agrees t (writesOf fs calls v))
    (hv : (s.node v).Finished) (hc : c ∈ calls v) (hbs : c.bytes (fs v) = some bs) :
    s.image.slice c.slot bs.length = bs := by
  obtain ⟨hcalls, hfp, hbuffer⟩ := hv
  have hwrite : c.write (fs v) = (c.slot, bs) := by rw [CopyCall.write, hbs]; rfl
  have hmem : c.write (fs v) ∈ writesOf fs calls v := List.mem_map_of_mem hc
  have hnone : ∀ a, ¬ covers ((s.node v).left (fs v)) a := by
    intro a
    rw [Copier.left, hcalls, hfp, hbuffer, List.map_nil, Option.getD_none, List.append_nil,
      covers_skip]
    exact covers_nil
  have hslice := H.writers.done ht hnone hmem
  rwa [hwrite] at hslice

omit [DecidableEq ν] [Fintype ν] in
/-- A byte outside the files in their slots is kept. -/
theorem kept {a : ℕ} (hok : ∀ v, ∀ c ∈ calls v, c.Ok (fs v))
    (ha : ∀ v, ∀ c ∈ calls v, ∀ bs ∈ c.bytes (fs v), ¬ (c.slot ≤ a ∧ a < c.slot + bs.length)) :
    s.image a = image a := by
  refine H.writers.kept a fun v hcov => ?_
  obtain ⟨w, hw, hin⟩ := hcov
  obtain ⟨c, hc, rfl⟩ := List.mem_map.1 hw
  obtain ⟨bs, hbs, -⟩ := (hok v c hc).file
  have hwrite : c.write (fs v) = (c.slot, bs) := by rw [CopyCall.write, hbs]; rfl
  rw [hwrite] at hin
  exact ha v c hc bs hbs hin

end CopyInv

/-- **Data nodes may copy at the same time.**  If no slot id is given twice, then in every
    schedule, whatever each `fread` delivers and whenever a stream stores what it has buffered:
    there is an end to the moves, a node that has not finished can move, a node that has
    finished has each of its files in its slot, and nothing outside the slots was changed. -/
theorem parallel_copies (hok : ∀ v, ∀ c ∈ calls v, c.Ok (fs v)) (hd : DistinctSlots calls)
    (h : (nodes fs).Run Machine.anyStep (startAll image calls) tr s) :
    tr.length ≤ ∑ v, ((calls v).map (Copier.callWork (fs v))).sum ∧
    (∀ v, ¬ (s.node v).Finished → ∃ x, ((nodes fs).step s (v, x)).isSome = true) ∧
    (∀ v, (s.node v).Finished → ∀ c ∈ calls v, ∀ bs ∈ c.bytes (fs v),
      s.image.slice c.slot bs.length = bs) ∧
    ∀ a, (∀ v, ∀ c ∈ calls v, ∀ bs ∈ c.bytes (fs v),
      ¬ (c.slot ≤ a ∧ a < c.slot + bs.length)) → s.image a = image a := by
  obtain ⟨t, ht⟩ := exists_target hok hd
  obtain ⟨H, hwork⟩ := copiers_run (copyInv_start hok ht) h
  have hstart : totalWork fs (startAll image calls) =
      ∑ v, ((calls v).map (Copier.callWork (fs v))).sum := rfl
  exact ⟨by omega, fun v => H.can_move, fun v hv c hc bs hbs => H.stored (ht v) hv hc hbs,
    fun a => H.kept hok⟩

/-! ## The three data nodes -/

instance : Fintype Node := ⟨{.slave1, .slave2, .node}, fun n => by cases n <;> decide⟩

/-- The first of the sample calls on `slave1`, the second on `slave2`. -/
def nodeCalls : Node → List CopyCall
  | .slave1 => sampleCalls.take 1
  | .slave2 => sampleCalls.drop 1
  | .node => []

/-- A schedule in which both nodes are at work at the same time. -/
def sampleSchedule : List (Node × Move) :=
  [(.slave1, .call), (.slave2, .call), (.slave2, .copy 1), (.slave1, .copy 1), (.slave2, .store 1),
    (.slave2, .copy 1), (.slave1, .store 1), (.slave2, .copy 0), (.slave1, .copy 0),
    (.slave2, .store 1)]

instance (tr : List (Machine.Event (Cluster Node) (Node × Move) Unit)) (s : Cluster Node)
    (x : Node × Move) : Decidable (Machine.anyStep tr s x) := .isTrue trivial

theorem parallel_copies_sample : ∃ tr s,
    Machine.exec (nodes fun _ => callFiles) Machine.anyStep sampleSchedule
      ([], startAll (fun _ => 0) nodeCalls) = some (tr, s) ∧ (∀ v, (s.node v).Finished) ∧
    tr.length ≤ ∑ v, ((nodeCalls v).map (Copier.callWork callFiles)).sum ∧
    (∀ v, ¬ (s.node v).Finished →
      ∃ x, ((nodes fun _ => callFiles).step s (v, x)).isSome = true) ∧
    (∀ v, (s.node v).Finished → ∀ c ∈ nodeCalls v, ∀ bs ∈ c.bytes callFiles,
      s.image.slice c.slot bs.length = bs) ∧
    ∀ a, (∀ v, ∀ c ∈ nodeCalls v, ∀ bs ∈ c.bytes callFiles,
      ¬ (c.slot ≤ a ∧ a < c.slot + bs.length)) → s.image a = 0 := by
  have hexec : (Machine.exec (nodes fun _ => callFiles) Machine.anyStep sampleSchedule
      ([], startAll (fun _ => 0) nodeCalls)).any
        (fun y => decide (∀ v, (y.2.node v).Finished)) = true := by decide +kernel
  obtain ⟨⟨tr, s⟩, he, hfinished⟩ := (Option.any_eq_true _ _).1 hexec
  refine ⟨tr, s, he, of_decide_eq_true hfinished, parallel_copies (fun v c hc => ?_)
    ⟨by decide, by decide⟩ (Machine.exec_run .nil he)⟩
  refine sampleCalls_ok c ?_
  cases v with
  | slave1 => exact List.mem_of_mem_take hc
  | slave2 => exact List.mem_of_mem_drop hc
  | node => exact absurd hc List.not_mem_nil

end Blocklist
