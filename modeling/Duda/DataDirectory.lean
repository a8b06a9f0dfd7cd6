import Duda.CheckedMemory
import Duda.MachineInt
import Duda.ServiceConf

/-!
# Locating a file in the data directory

The data directory is stored with a length, and the path of a file is composed
by that length. When a slash is added to the directory the length counts the
terminator as well. The terminator of the path itself is written behind the
block that was allocated for it.
-/

set_option autoImplicit false

namespace Duda.DataDirectory
open Duda.CheckedMemory Duda.CString Duda.MachineInt Duda.Router Duda.Runs Duda.ServiceConf

/-- The block that `mem_alloc` returns for a length of type `int`, with what it
held before. With a negative length there is no block. -/
def memAlloc (uninit : ℕ → UInt8) (len : ℤ) : Vector UInt8 len.toNat :=
  Vector.ofFn (fun i => uninit i)

/-- `len` in `duda_data_locate`. -/
def pathLen (dir : Ptr) (filename : Text) : ℤ := i32 (dir.len+i32 filename.bytes.length+1)

/-- The two copies of `duda_data_locate`. The memory at `dir` holds its text and
a terminator. -/
def copyPath (uninit : ℕ → UInt8) (dir : Ptr) (filename : Text) :
    Except Access (Vector UInt8 (pathLen dir filename).toNat) :=
  (fill (dir.data++[0]) 0 dir.len 0 (memAlloc uninit (pathLen dir filename))).bind
    (fill (filename.bytes++[0]) dir.len (u64 (i32 filename.bytes.length)) 0)

/-- `duda_data_locate` for a request of the service `ws`: the block of the path,
or none for `NULL`. -/
def dataLocate (uninit : ℕ → UInt8) (ws : Service) (filename : Option Text) :
    Except Access (Option (List UInt8)) :=
  match ws.datadir, filename with
  | some dir, some filename =>
    (copyPath uninit dir filename).bind fun path =>
      (store path (pathLen dir filename).toNat 0).map fun path => some path.toList
  | _, _ => .ok none

theorem locate_copied (uninit : ℕ → UInt8) (ws : Service) (dir : Ptr) (f : Text)
    (hdir : ws.datadir = some dir) {path : Vector UInt8 (pathLen dir f).toNat}
    (h : copyPath uninit dir f = .ok path) :
    dataLocate uninit ws (some f) = .error (.write (pathLen dir f).toNat) := by
  simp only [dataLocate, hdir, h, Except.bind, store, lt_irrefl, dif_neg, not_false_eq_true]
  rfl

theorem locate_stops (uninit : ℕ → UInt8) (ws : Service) (dir : Ptr) (f : Text)
    (hdir : ws.datadir = some dir) :
    ∃ access, dataLocate uninit ws (some f) = .error access := by
  cases h : copyPath uninit dir f with
  | ok path => exact ⟨_,locate_copied uninit ws dir f hdir h⟩
  | error access =>
    refine ⟨access,?_⟩
    simp only [dataLocate, hdir, h, Except.bind]

theorem copyPath_spec (uninit : ℕ → UInt8) (dir : Ptr) (f : Text)
    (hlen : dir.len ≤ dir.data.length+1) (hs : dir.len+f.bytes.length+1 < 2^31) :
    ∃ path, copyPath uninit dir f = .ok path ∧
      path.toList.take (dir.len+f.bytes.length) = (dir.data++[0]).take dir.len++f.bytes ∧
      (pathLen dir f).toNat = dir.len+f.bytes.length+1 := by
  have hflen : i32 (f.bytes.length:ℤ) = f.bytes.length := i32_natCast _ (by omega)
  have hcount : u64 ((f.bytes.length:ℕ):ℤ) = f.bytes.length := u64_natCast _ (by omega)
  have hpath : (pathLen dir f).toNat = dir.len+f.bytes.length+1 := by
    rw [pathLen, hflen, i32_of_range _ (by omega) (by omega)]
    omega
  obtain ⟨block,hblock⟩ := (fill_ok_iff (dir.data++[0]) 0 dir.len 0
    (memAlloc uninit (pathLen dir f))).mpr
      (.inr ⟨by simp only [List.length_append, List.length_singleton]; omega,by omega⟩)
  obtain ⟨path,hwhole⟩ := (fill_ok_iff (f.bytes++[0]) dir.len f.bytes.length 0 block).mpr
    (.inr ⟨by simp only [List.length_append, List.length_singleton]; omega,by omega⟩)
  have hfirst := fill_take _ _ _ _ _ _
    (by simp only [List.length_append, List.length_singleton]; omega) (by omega) hblock
  have hsecond := fill_take _ _ _ _ _ _
    (by simp only [List.length_append, List.length_singleton]; omega) (by omega) hwhole
  refine ⟨path,?_,?_,hpath⟩
  · rw [copyPath, hflen, hcount, hblock]
    exact hwhole
  · simp only [add_zero, zero_add, List.take_zero, List.nil_append, List.drop_zero,
      List.take_left] at hfirst hsecond
    rw [hsecond, hfirst]

theorem set_datadir (isDirectory : List UInt8 → Bool) {ws ws' : Service} {d : Text}
    (h : confSetDatadir isDirectory ws d = some ws') :
    ws'.datadir = some (withSlash 2 d) := by
  simp only [confSetDatadir, setDir] at h
  split at h
  · cases h; rfl
  · cases h

theorem withSlash_ends {d : Text} (hd : d.bytes ≠ []) (h : d.bytes.getLast hd = slash) :
    withSlash 2 d = ⟨d.bytes,d.bytes.length⟩ :=
  if_pos (by rw [List.getLast?_eq_some_getLast hd, h])

theorem withSlash_added {d : Text} (hd : d.bytes ≠ []) (h : d.bytes.getLast hd ≠ slash) :
    withSlash 2 d = ⟨d.bytes++[slash],d.bytes.length+2⟩ :=
  if_neg (by rw [List.getLast?_eq_some_getLast hd, Option.some.injEq]; exact h)

/-- What the length of a directory counts of the memory behind its pointer. -/
theorem withSlash_counted (d : Text) (hd : d.bytes ≠ []) :
    (withSlash 2 d).len ≤ (withSlash 2 d).data.length+1 ∧
      ((withSlash 2 d).data++[0]).take (withSlash 2 d).len =
        if d.bytes.getLast hd = slash then d.bytes else d.bytes++[slash,0] := by
  by_cases hs : d.bytes.getLast hd = slash
  · rw [withSlash_ends hd hs, if_pos hs]
    simp
  · rw [withSlash_added hd hs, if_neg hs]
    refine ⟨by simp,?_⟩
    rw [List.append_assoc]
    exact List.take_of_length_le (by simp)

/-- Of every directory and every file name: the lookup writes outside the block.
The stored length is the one of the path exactly when the directory ends with a
slash. What the block holds by then is the directory, the file name and a cell
that was not written; when a slash was added, a terminator stands in front of
the file name. -/
theorem locate_outside (isDirectory : List UInt8 → Bool) (ws ws' : Service) (d : Text)
    (hd : d.bytes ≠ []) (h : confSetDatadir isDirectory ws d = some ws') :
    ∃ dir, ws'.datadir = some dir ∧
      (dir.len = dir.data.length ↔ d.bytes.getLast hd = slash) ∧
      ∀ (f : Text) (uninit : ℕ → UInt8),
        (∃ access, dataLocate uninit ws' (some f) = .error access) ∧
        (dir.len+f.bytes.length+1 < 2^31 →
          dataLocate uninit ws' (some f) = .error (.write (dir.len+f.bytes.length+1)) ∧
          ∃ path, copyPath uninit dir f = .ok path ∧
            path.toList.take (dir.len+f.bytes.length) =
              (if d.bytes.getLast hd = slash then d.bytes else d.bytes++[slash,0])++f.bytes) := by
  have hdir := set_datadir isDirectory h
  refine ⟨_,hdir,?_,?_⟩
  · by_cases hs : d.bytes.getLast hd = slash
    · simp [withSlash_ends hd hs, hs]
    · simp [withSlash_added hd hs, hs]
  · intro f uninit
    refine ⟨locate_stops uninit ws' _ f hdir,?_⟩
    intro hshort
    obtain ⟨hle,hcounted⟩ := withSlash_counted d hd
    obtain ⟨path,hpath,htake,hlen⟩ := copyPath_spec uninit _ f hle hshort
    refine ⟨?_,path,hpath,?_⟩
    · rw [locate_copied uninit ws' _ f hdir hpath, hlen]
    · rw [htake, hcounted]

/-- A service without directories. -/
def plainService : Service := ⟨0,⟨⟨[119],by decide⟩,⟨[119],by decide⟩,false⟩,1,none,none,none,none⟩

/-- The directory `/v` with the file `f`. -/
def slashDir : Text := ⟨[47,118],by decide⟩

def fileName : Text := ⟨[102],by decide⟩

theorem locate_slash_dir :
    ∃ ws' dir, confSetDatadir (fun _ => true) plainService slashDir = some ws' ∧
      ws'.datadir = some dir ∧ dir.len ≠ dir.data.length ∧
      ∃ access, dataLocate (fun _ => 0) ws' (some fileName) = .error access := by
  obtain ⟨dir,hdir,hlen,h⟩ :=
    locate_outside (fun _ => true) plainService _ slashDir (by decide) rfl
  exact ⟨_,dir,rfl,hdir,fun he => absurd (hlen.mp he) (by decide),(h fileName (fun _ => 0)).1⟩

/-- The length of `/v/` is stored as four, the block has six cells, and in it a
terminator stands in front of the `f`; the seventh cell is written. -/
theorem locate_cuts_name :
    ∃ ws', confSetDatadir (fun _ => true) plainService slashDir = some ws' ∧
      ws'.datadir = some ⟨[47,118,47],4⟩ ∧
      dataLocate (fun _ => 7) ws' (some fileName) = .error (.write 6) ∧
      (copyPath (fun _ => 7) ⟨[47,118,47],4⟩ fileName).map Vector.toList =
        .ok [47,118,47,0,102,7] :=
  ⟨_,rfl,rfl,by rfl,by rfl⟩

end Duda.DataDirectory
