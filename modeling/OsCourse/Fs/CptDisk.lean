import OsCourse.Fs.Arrays
import OsCourse.Fs.Cpt

/-!
# OsCourse.Fs.CptDisk

The loop of `cpt` on a disk. There a read delivers all it is asked for, and the loop is
the sequence of calls `loopCalls` of `readi` and `writei`. On byte arrays these calls do
what the loop does, one `fileread` and one `filewrite` after another, so by
`files_are_arrays` the disk holds in the end what the loop says (`copy_on_disk`).
-/

namespace OsCourse.Fs

open Lib

variable {n : Nat} {i j : Fin n} {inums : Fin n → Nat} {x : (Nat → List UInt8) × List Result}
variable {fs fs' : FileSys} {f fd_src fd_dest : OpenFile} {fuel k : Nat}

/-- The calls of the loop, with entry `i` open on the source and entry `j` on the
destination. -/
def loopCalls (i j : Fin n) : Nat → FileSys → OpenFile → OpenFile → List (Call n)
  | 0, _, _, _ => []
  | fuel + 1, fs, fd_src, fd_dest =>
      let r := fileread fs fd_src 512 512
      .read i (.ofNat fd_src.off) 512 ::
        if r.1 > 0 then
          let w := filewrite fs fd_dest r.2.1
          .write j (fun m => r.2.1.getD m 0) (.ofNat fd_dest.off) (.ofNat r.2.1.length) ::
            if w.2.2 ≠ r.1 then [] else loopCalls i j fuel w.1 r.2.2 w.2.1
        else []

/-! ### One call -/

/-- A read of an open file is a read of the array. -/
theorem fileread_array (p count : UInt32) (hf : f.readable = true) (hip : inums i = f.ip)
    (hpos : p.toNat = f.off) (hx : x.1 f.ip = fs.content f.ip) :
    let r := fileread fs f count.toNat count.toNat
    (Call.read i p count).array inums x = (x.1, x.2 ++ [(r.1, r.2.1)]) := by
  have hread : ¬ f.readable = false := by simp [hf]
  simp only [Call.array, fileread, if_neg hread, hip, hpos, hx]
  split_ifs <;> rfl

/-- A read that delivers something. -/
theorem fileread_of_pos {m : Nat} (h : (fileread fs f m k).1 > 0) :
    ∃ bytes : List UInt8,
      fileread fs f m k = ((bytes.length : Int), bytes, { f with off := f.off + bytes.length }) ∧
      bytes ≠ [] ∧ bytes.length ≤ k ∧ f.off + bytes.length ≤ MAXFILE * BSIZE := by
  have hbound := fs.length_content_le f.ip
  unfold fileread at h ⊢
  by_cases hf : f.readable = false
  · simp [hf] at h
  by_cases hread : Readable (fs.content f.ip).length f.off m
  · simp only [if_neg hf, if_pos hread] at h ⊢
    have hoff := hread.1
    refine ⟨_, rfl, List.ne_nil_of_length_pos (by omega), List.length_take_le _ _, ?_⟩
    rw [List.length_take, List.length_drop]
    omega
  · simp [hf, hread] at h

/-- A write of one piece that returns its length. -/
theorem filewrite_of_eq {src : List UInt8} (hf : f.writable = true) (hne : src ≠ [])
    (hpiece : src.length ≤ MAXWRITE) (h : (filewrite fs f src).2.2 = src.length) :
    (filewrite fs f src).2.1 = { f with off := f.off + src.length } ∧
      f.off + src.length ≤ MAXFILE * BSIZE := by
  rw [filewrite_of_piece hf hne hpiece] at h ⊢
  by_cases hwrite : Writable (fs.content f.ip).length f.off src.length
  · obtain ⟨fs', hfs', -⟩ := writei_of_writable hwrite
    rw [hfs']
    exact ⟨rfl, hwrite.2⟩
  · rw [FileSys.writei, dif_neg hwrite, Option.elim_none] at h
    have hlen : (-1 : Int) = src.length := h
    omega

/-- A write of one piece is a write of the array. -/
theorem filewrite_array (src : Nat → UInt8) (p count : UInt32) (hf : f.writable = true)
    (hip : inums j = f.ip) (hpos : p.toNat = f.off) (hx : x.1 f.ip = fs.content f.ip)
    (hcount : 0 < count.toNat) (hpiece : count.toNat ≤ MAXWRITE) :
    let r := filewrite fs f ((List.range count.toNat).map src)
    ((Call.write j src p count).array inums x).2 = x.2 ++ [(r.2.2, [])] ∧
      ∀ m, x.1 m = fs.content m →
        ((Call.write j src p count).array inums x).1 m = r.1.content m := by
  have hlen : ((List.range count.toNat).map src).length = count.toNat := by simp
  have hne : (List.range count.toNat).map src ≠ [] := List.ne_nil_of_length_pos (by omega)
  rw [filewrite_of_piece hf hne (by omega)]
  simp only [Call.array, hip, hpos, hx]
  by_cases hwrite : Writable (fs.content f.ip).length f.off count.toNat
  · obtain ⟨fs', hfs', -, hbytes⟩ := writei_of_writable (hlen.symm ▸ hwrite)
    rw [if_pos hwrite, hfs', Option.elim_some, hlen]
    refine ⟨rfl, fun m hm => ?_⟩
    change Function.update x.1 f.ip _ m = (fs'.bytes m).getD []
    rw [hbytes]
    by_cases heq : m = f.ip
    · rw [heq, Function.update_self, Function.update_self]
      rfl
    · rw [Function.update_of_ne heq, Function.update_of_ne heq, hm]
      rfl
  · have hnone : fs.writei f.ip f.off ((List.range count.toNat).map src) = none := by
      rw [FileSys.writei, dif_neg (hlen.symm ▸ hwrite)]
    rw [if_neg hwrite, hnone, Option.elim_none]
    exact ⟨rfl, fun m hm => hm⟩

/-! ### The loop -/

/-- On arrays the calls of the loop do what the loop does. -/
theorem foldl_loopCalls (hi : inums i = fd_src.ip) (hj : inums j = fd_dest.ip)
    (hreadable : fd_src.readable = true) (hwritable : fd_dest.writable = true)
    (hsrc : fd_src.off ≤ MAXFILE * BSIZE) (hdest : fd_dest.off ≤ MAXFILE * BSIZE)
    (hxi : x.1 fd_src.ip = fs.content fd_src.ip) (hxj : x.1 fd_dest.ip = fs.content fd_dest.ip)
    (hrun : cptFileToFile .full fuel k fs fd_src fd_dest = some (fs', .copied)) {m : Nat}
    (hm : x.1 m = fs.content m) :
    ((loopCalls i j fuel fs fd_src fd_dest).foldl (fun x c => c.array inums x) x).1 m =
      fs'.content m := by
  have hlimit : MAXFILE * BSIZE < UInt32.size := by decide
  induction fuel generalizing fs fd_src fd_dest k x with
  | zero => cases hrun
  | succ fuel ih =>
      have hpos : (UInt32.ofNat fd_src.off).toNat = fd_src.off :=
        UInt32.toNat_ofNat_of_lt' (by omega)
      have hread := fileread_array (.ofNat fd_src.off) 512 hreadable hi hpos hxi
      obtain ⟨y, hy⟩ : ∃ y, (Call.read i (.ofNat fd_src.off) 512).array inums x = y := ⟨_, rfl⟩
      have hyx : y.1 = x.1 := by rw [← hy, hread]
      have hfull : Reads.full.size k = 512 := rfl
      simp only [cptFileToFile, hfull] at hrun
      rw [loopCalls, List.foldl_cons, hy]
      by_cases hr : (fileread fs fd_src 512 512).1 > 0
      · obtain ⟨bytes, heq, hne, hlen, hoff⟩ := fileread_of_pos hr
        have hpiece : bytes.length ≤ MAXWRITE := Nat.le_trans hlen (by decide)
        rw [if_pos hr]
        rw [if_pos hr] at hrun
        simp only [heq] at hrun ⊢
        have hposDest : (UInt32.ofNat fd_dest.off).toNat = fd_dest.off :=
          UInt32.toNat_ofNat_of_lt' (by omega)
        have hcount : (UInt32.ofNat bytes.length).toNat = bytes.length :=
          UInt32.toNat_ofNat_of_lt' (by omega)
        have hbytes : (List.range (UInt32.ofNat bytes.length).toNat).map (fun m => bytes.getD m 0) =
            bytes := by
          rw [hcount]
          exact List.ext_getElem (by simp) fun m _ hm => by
            simp [List.getElem?_eq_getElem hm]
        have hwrite := filewrite_array (fun m => bytes.getD m 0) (.ofNat fd_dest.off)
          (.ofNat bytes.length) hwritable hj hposDest (hyx ▸ hxj)
          (by rw [hcount]; exact List.length_pos_of_ne_nil hne) (by rw [hcount]; exact hpiece)
        rw [hbytes] at hwrite
        rw [List.foldl_cons]
        by_cases hw : (filewrite fs fd_dest bytes).2.2 = bytes.length
        · obtain ⟨hfile, hend⟩ := filewrite_of_eq hwritable hne hpiece hw
          rw [if_neg (not_not.mpr hw), hfile] at hrun ⊢
          exact ih hi hj hreadable hwritable hoff hend (hwrite.2 _ (hyx ▸ hxi))
            (hwrite.2 _ (hyx ▸ hxj)) hrun (hwrite.2 m (hyx ▸ hm))
        · rw [if_pos hw] at hrun
          cases hrun
      · rw [if_neg hr, List.foldl_nil, hyx, hm]
        rw [if_neg hr] at hrun
        cases hrun
        rfl

/-- **The copy on a disk.** If the files of entries `i` and `j` are those of `fs`, and
there is room for what the loop writes, its calls leave in the file of entry `j` the
bytes of that of `i`, over those it had. -/
theorem copy_on_disk (dev : Devsw) {sb : Superblock} {F : Nat → Prop} {s₀ : State n}
    {c old : List UInt8} (h : Sound sb F s₀) (hreg : Regular sb F s₀ j)
    (hc : arrays sb s₀.disk (s₀.icache i).inum = c)
    (hold : arrays sb s₀.disk (s₀.icache j).inum = old)
    (hi : fs.bytes (s₀.icache i).inum = some c) (hj : fs.bytes (s₀.icache j).inum = some old)
    (hfuel : c.length < fuel)
    (hcalls : (calls sb dev s₀).Meets (fun t c => Regular sb F s₀ c.entry ∧ c.Room sb t.1) (s₀, [])
      (loopCalls i j fuel fs ⟨(s₀.icache i).inum, 0, true, false⟩
        ⟨(s₀.icache j).inum, 0, true, true⟩)) :
    ∃ t, (calls sb dev s₀).exec (s₀, []) (loopCalls i j fuel fs
        ⟨(s₀.icache i).inum, 0, true, false⟩ ⟨(s₀.icache j).inum, 0, true, true⟩) = some t ∧
      arrays sb t.1.disk (s₀.icache j).inum = overlay old 0 c := by
  have hsame : (s₀.icache i).inum = (s₀.icache j).inum → old = c := by
    intro heq
    rw [← hold, ← hc, heq]
  have hstart : fs.bytes (s₀.icache j).inum = some (overlay old 0 (c.take 0)) := by
    rw [hj, overlay_zero]
    simp
  obtain ⟨fs', hrun, -, hbytes⟩ :=
    cptFileToFile_spec .full 0 hi hstart hsame (Nat.zero_le _) hfuel
  obtain ⟨t, hexec, -, hall⟩ := files_are_arrays dev _ h hcalls
  have hcontent : arrays sb s₀.disk (s₀.icache i).inum = fs.content (s₀.icache i).inum := by
    rw [hc, content_of_bytes hi]
  have hcontent' : arrays sb s₀.disk (s₀.icache j).inum = fs.content (s₀.icache j).inum := by
    rw [hold, content_of_bytes hj]
  have hloop : ((loopCalls i j fuel fs ⟨(s₀.icache i).inum, 0, true, false⟩
      ⟨(s₀.icache j).inum, 0, true, true⟩).foldl
        (fun x c => c.array (fun i => (s₀.icache i).inum) x) (arrays sb s₀.disk, [])).1
          (s₀.icache j).inum = fs'.content (s₀.icache j).inum :=
    foldl_loopCalls rfl rfl rfl rfl (Nat.zero_le _) (Nat.zero_le _) hcontent hcontent' hrun
      hcontent'
  have htype : (dinode sb s₀.disk (s₀.icache j).inum).type ≠ 0 := by
    rw [hreg.2.2]
    decide
  exact ⟨t, hexec, (hall _ (h.inum_lt j hreg.1) htype).trans
    (hloop.trans (content_of_bytes hbytes))⟩

end OsCourse.Fs
