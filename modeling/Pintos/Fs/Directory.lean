/-
  The directory (filesys/directory.c).

  A directory is a file of 20-byte entries.  There is one, whose inode is in the sector 1; entries are found
  by reading them one after the other.
-/
import Pintos.Fs.Inode
import Pintos.Lib.Total

namespace Pintos

open Lib Prog List

/-- `struct dir_entry`. -/
structure DirEntry where
  inodeSector : ℕ
  name : List UInt8
  inUse : Bool
  deriving DecidableEq, Repr

namespace DirEntry

def toBytes (e : DirEntry) : List UInt8 := ofWord e.inodeSector ++ (e.name ++ [if e.inUse then 1 else 0])

def ofBytes (l : List UInt8) : DirEntry where
  inodeSector := toWord l
  name := (l.drop 4).take 15
  inUse := l[19]?.getD 0 != 0

theorem length_toBytes {e : DirEntry} (h : e.name.length = 15) : e.toBytes.length = 20 := by
  simp only [toBytes, length_append, length_ofWord, h, length_singleton]

theorem ofBytes_toBytes {e : DirEntry} (hs : e.inodeSector < 2 ^ 32) (hn : e.name.length = 15) :
    ofBytes e.toBytes = e := by
  have hdrop : e.toBytes.drop 4 = e.name ++ [if e.inUse then 1 else 0] := drop_left' rfl
  have hlast : e.toBytes[19]? = some (if e.inUse then 1 else 0) := by
    have h4 : e.toBytes[19]? = (e.toBytes.drop 4)[15]? := by rw [getElem?_drop]
    rw [h4, hdrop, getElem?_append_right (by omega), hn]
    rfl
  unfold ofBytes
  rw [hdrop, hlast, toBytes, toWord_ofWord_append hs, take_left' hn]
  have huse : ((some (if e.inUse then (1 : UInt8) else 0)).getD 0 != 0) = e.inUse := by cases e.inUse <;> rfl
  rw [huse]

end DirEntry

/-- `struct dir`; `pos` is only used to list a directory. -/
structure Dir where
  inode : ℕ

/-- Strings that are passed as names, without the null byte at their end. -/
abbrev Name := { l : List UInt8 // (0 : UInt8) ∉ l }

/-- The string at the start of an array; all names in use end inside their array. -/
def cstr (l : List UInt8) : List UInt8 := l.takeWhile (· != 0)

/-- `strlcpy` to an array of `size` bytes, which keeps the bytes behind the string. -/
def strlcpy (dst src : List UInt8) (size : ℕ) : List UInt8 := overwrite dst 0 (src.take (size - 1) ++ [0])

/-- `dir_create`; the size is computed as `size_t` and passed as `off_t`. -/
def dirCreate (sector entryCnt : ℕ) : FsM Bool := inodeCreate sector (Int.bmod (entryCnt * 20 : ℕ) (2 ^ 32))

def dirOpen (inode : Option ℕ) : FsM (Option Dir) := do
  let found ← malloc
  match inode, found with
  | some i, true => pure (some ⟨i⟩)
  | _, _ => do
    inodeClose inode
    pure none

/-- `dir_open_root`; `ROOT_DIR_SECTOR` is 1. -/
def dirOpenRoot : FsM (Option Dir) := do
  let inode ← inodeOpen 1
  dirOpen inode

def dirReopen (dir : Dir) : FsM (Option Dir) := do
  let inode ← inodeReopen (some dir.inode)
  dirOpen inode

def dirClose : Option Dir → FsM Unit
  | none => pure ()
  | some dir => inodeClose (some dir.inode)

/-- The loops of `lookup` and `dir_add`: read entries into `e` until one has the property; the
    result is whether there is one, its offset and `e`. -/
def scanLoop (inode : ℕ) (p : DirEntry → Bool) : ℕ → ℕ → List UInt8 → FsM (Bool × ℕ × List UInt8)
  | 0, _, _ => throw .bound
  | fuel + 1, ofs, e => do
    let bytes ← inodeReadAt inode 20 ofs
    let e := overwrite e 0 bytes
    if bytes.length = 20 then
      if p (.ofBytes e) then pure (true, ofs, e) else scanLoop inode p fuel (ofs + 20) e
    else pure (false, ofs, e)

/-- Scan the whole directory.  `e` is not initialised by the source; it is filled by the first read
    of a directory that has entries. -/
def scanDir (dir : Dir) (p : DirEntry → Bool) : FsM (Bool × ℕ × List UInt8) := do
  let n ← getInode dir.inode
  scanLoop dir.inode p (n.data.length.toNat / 20 + 1) 0 (List.replicate 20 0)

/-- `e.in_use && !strcmp (name, e.name)`. -/
def DirEntry.hasName (name : Name) (e : DirEntry) : Bool := e.inUse && cstr e.name == name.val

theorem hasName_iff {e : DirEntry} {name : Name} : e.hasName name = true ↔ e.inUse = true ∧ cstr e.name = name.val := by
  unfold DirEntry.hasName
  rw [Bool.and_eq_true, beq_iff_eq]

/-- `lookup`: the entry and its offset. -/
def lookup (dir : Dir) (name : Name) : FsM (Option (DirEntry × ℕ)) := do
  let r ← scanDir dir (DirEntry.hasName name)
  pure (if r.1 then some (.ofBytes r.2.2, r.2.1) else none)

def dirLookup (dir : Dir) (name : Name) : FsM (Option ℕ) := do
  let found ← lookup dir name
  match found with
  | some (e, _) => inodeOpen e.inodeSector
  | none => pure none

/-- An entry as a buffer to write. -/
def DirEntry.buffer (e : DirEntry) : ℕ → UInt8 := fun i => e.toBytes[i]?.getD 0

/-- The entry that `dir_add` puts in the place of `e`. -/
def DirEntry.renew (e : DirEntry) (name : Name) (inodeSector : ℕ) : DirEntry :=
  { e with inUse := true, name := strlcpy e.name name.val 15, inodeSector }

def dirAdd (dir : Dir) (name : Name) (inodeSector : ℕ) : FsM Bool := do
  if name.val = [] ∨ 14 < name.val.length then pure false
  else do
    let found ← lookup dir name
    match found with
    | some _ => pure false
    | none => do
      let r ← scanDir dir fun e => !e.inUse
      let e := (DirEntry.ofBytes r.2.2).renew name inodeSector
      let written ← inodeWriteAt dir.inode e.buffer 20 r.2.1
      pure (written == 20)

/-- The entry that `dir_remove` puts in the place of `e`. -/
def DirEntry.unused (e : DirEntry) : DirEntry := { e with inUse := false }

def dirRemove (dir : Dir) (name : Name) : FsM Bool := do
  let found ← lookup dir name
  match found with
  | none => pure false
  | some (e, ofs) => do
    let inode ← inodeOpen e.inodeSector
    match inode with
    | none => pure false
    | some i => do
      let written ← inodeWriteAt dir.inode e.unused.buffer 20 ofs
      if written = 20 then do
        inodeRemove i
        inodeClose (some i)
        pure true
      else do
        inodeClose (some i)
        pure false

/-! ## Entries of a directory -/

/-- The entry `i` of a directory with the content `c`. -/
def entryAt (c : List UInt8) (i : ℕ) : DirEntry := .ofBytes ((c.drop (20 * i)).take 20)

/-- No two slots in use have the same name. -/
def DistinctNames (m : ℕ) (c : List UInt8) : Prop :=
  ∀ j < m, ∀ k < m, (entryAt c j).inUse = true → (entryAt c k).inUse = true →
    cstr (entryAt c j).name = cstr (entryAt c k).name → j = k

/-- The entry is in use, for the name and the sector. -/
def DirEntry.Binds (e : DirEntry) (name : List UInt8) (inodeSector : ℕ) : Prop :=
  e.inUse = true ∧ cstr e.name = name ∧ e.inodeSector = inodeSector

section
variable {c l : List UInt8} {m i j k : ℕ}

theorem entry_bytes_overwrite (hc : 20 * m ≤ c.length) (hl : l.length = 20) (hk : k < m) :
    ((overwrite c (20 * k) l).drop (20 * j)).take 20 = if j = k then l else (c.drop (20 * j)).take 20 := by
  have hlen : 20 * k + l.length ≤ c.length := by omega
  apply ext_getElem?
  intro i
  by_cases hi : i < 20
  · have hlist : ∀ l : List UInt8, ((l.drop (20 * j)).take 20)[i]? = l[20 * j + i]? := by
      intro l
      rw [getElem?_take_of_lt hi, getElem?_drop]
    rw [hlist, getElem?_overwrite hlen]
    split_ifs with h1 h2 h3 h4 h5
    · omega
    · rw [hlist]
    · congr 1
      omega
    · omega
    · omega
    · rw [hlist]
  · rw [getElem?_eq_none (by rw [length_take]; omega)]
    split_ifs
    · rw [getElem?_eq_none (by omega)]
    · rw [getElem?_eq_none (by rw [length_take]; omega)]

theorem entryAt_overwrite (hc : 20 * m ≤ c.length) (hl : l.length = 20) (hk : k < m) :
    entryAt (overwrite c (20 * k) l) j = if j = k then .ofBytes l else entryAt c j := by
  unfold entryAt
  rw [entry_bytes_overwrite hc hl hk]
  split_ifs <;> rfl

variable {e : DirEntry}

theorem entryAt_put (hc : 20 * m ≤ c.length) (hk : k < m) (hn : e.name.length = 15)
    (hs : e.inodeSector < 2 ^ 32) (j : ℕ) :
    entryAt (overwrite c (20 * k) e.toBytes) j = if j = k then e else entryAt c j := by
  rw [entryAt_overwrite hc (DirEntry.length_toBytes hn) hk, DirEntry.ofBytes_toBytes hs hn]

theorem cstr_append (name : Name) (l : List UInt8) : cstr (name.val ++ 0 :: l) = name.val := by
  unfold cstr
  rw [takeWhile_append_of_pos, takeWhile_cons_of_neg (by decide), append_nil]
  intro a ha
  simpa using fun h : a = 0 => name.2 (h ▸ ha)

theorem cstr_strlcpy {name : Name} (h : name.val.length ≤ 14) : cstr (strlcpy l name.val 15) = name.val := by
  unfold strlcpy overwrite
  rw [take_zero, nil_append, take_of_length_le h, append_assoc, singleton_append,
    cstr_append]

theorem length_strlcpy {name : Name} (h : name.val.length ≤ 14) (hl : l.length = 15) :
    (strlcpy l name.val 15).length = 15 := by
  unfold strlcpy
  rw [length_overwrite, hl]
  rw [length_append, length_take, length_singleton]
  omega

theorem length_name_ofBytes (h : l.length = 20) : (DirEntry.ofBytes l).name.length = 15 := by
  unfold DirEntry.ofBytes
  rw [length_take, length_drop, h]
  rfl

theorem length_entry (hc : 20 * m ≤ c.length) (hi : i < m) : ((c.drop (20 * i)).take 20).length = 20 := by
  rw [length_take, length_drop]
  omega

/-! ## Reading and writing entries -/

variable {s : Fs} {n : Inode} {dir : Dir} {name : Name} {p : DirEntry → Bool} {memory : ℕ → Bool}

theorem slice_buffer (h : e.toBytes.length = 20) : slice e.buffer 0 20 = e.toBytes := by
  apply ext_getElem?
  intro i
  rw [getElem?_slice]
  split_ifs with hi
  · rw [Nat.zero_add, DirEntry.buffer, getElem?_eq_getElem (by omega), Option.getD_some]
  · rw [getElem?_eq_none (by omega)]

theorem needsBounce_entry (offset : ℕ) : NeedsBounce offset 20 := ⟨by decide, fun h => absurd h.2 (by decide)⟩

theorem within_entry (h : n.data.length = c.length) (hc : 20 * m ≤ c.length) (hj : j < m) :
    within n.data.length 20 (20 * j) = 20 := by
  unfold within
  omega

theorem Content.readEntry (h : Content s i n c) (hc : 20 * m ≤ c.length) (hj : j < m) :
    (inodeReadAt i 20 (20 * j)).run s =
      .ok (if s.memory 0 = true then (c.drop (20 * j)).take 20 else [], s.withMemory fun n => s.memory (n + 1)) := by
  unfold inodeReadAt
  rw [run_bind_ok (getInode_run h.get), readLoop_exact _ s false 20 (20 * j) [] h.inDevice le_rfl,
    within_entry h.length_eq hc hj, memoryLeft_malloc (needsBounce_entry _), nil_append]
  cases hm : s.memory 0 with
  | false =>
    rw [moved_none (needsBounce_entry _) (.inr (by decide)) hm]
    rfl
  | true =>
    have hentry : slice s.disk (512 * n.data.start + 20 * j) 20 = (c.drop (20 * j)).take 20 := by
      rw [← h.slice_eq, drop_slice, take_slice, Nat.min_eq_left (by omega)]
    rw [moved_of_bounce (.inr hm), hentry, if_pos rfl]

theorem Content.readEnd (h : Content s i n c) (hc : c.length = 20 * m) : (inodeReadAt i 20 (20 * m)).run s = .ok ([], s) := by
  have hwithin : within n.data.length 20 (20 * m) = 0 := within_of_length_le (by rw [h.length_eq, hc])
  unfold inodeReadAt
  rw [run_bind_ok (getInode_run h.get), readLoop_exact _ s false 20 (20 * m) [] h.inDevice le_rfl, hwithin, moved_zero,
    memoryLeft_zero]
  rfl

theorem Content.writeEntry (h : Content s i n c) (hw : n.denyWriteCnt = 0) (hc : 20 * m ≤ c.length) (hk : k < m)
    (he : e.name.length = 15) :
    (inodeWriteAt i e.buffer 20 (20 * k)).run s = .ok (if s.memory 0 = true
      then (20, (s.withDisk (store s.disk (512 * n.data.start + 20 * k) e.toBytes)).withMemory fun n => s.memory (n + 1))
      else (0, s.withMemory fun n => s.memory (n + 1))) := by
  unfold inodeWriteAt
  rw [run_bind_ok (getInode_run h.get), if_neg (by simpa using hw), writeLoop_exact _ _ s false 20 (20 * k) 0 h.inDevice le_rfl,
    within_entry h.length_eq hc hk, memoryLeft_malloc (needsBounce_entry _), Nat.zero_add]
  cases hm : s.memory 0 with
  | false =>
    rw [moved_none (needsBounce_entry _) (.inr (by decide)) hm, slice_zero, store_nil]
    rfl
  | true =>
    rw [moved_of_bounce (.inr hm), slice_buffer (DirEntry.length_toBytes he), if_pos rfl]

theorem Content.writeEnd (h : Content s i n c) (hw : n.denyWriteCnt = 0) (hc : c.length = 20 * m) (buffer : ℕ → UInt8) :
    (inodeWriteAt i buffer 20 (20 * m)).run s = .ok (0, s) := by
  have hwithin : within n.data.length 20 (20 * m) = 0 := within_of_length_le (by rw [h.length_eq, hc])
  unfold inodeWriteAt
  rw [run_bind_ok (getInode_run h.get), if_neg (by simpa using hw), writeLoop_exact _ _ s false 20 (20 * m) 0 h.inDevice le_rfl,
    hwithin, moved_zero, memoryLeft_zero, slice_zero, store_nil]
  rfl

/-! ## Scans -/

/-- A scan of `m` slots for one with `p` stops at the slot `j`: those before it were read and do not
    have `p`, and it is the end, or it cannot be read, or it has `p`. -/
structure ScanStops (memory : ℕ → Bool) (p : ℕ → Bool) (m j : ℕ) : Prop where
  le : j ≤ m
  before : ∀ l < j, memory l = true ∧ p l = false
  at_stop : j < m → memory j = false ∨ p j = true

theorem ScanStops.unique {p : ℕ → Bool} {j' : ℕ} (h : ScanStops memory p m j) (h' : ScanStops memory p m j') : j = j' := by
  have hle : ∀ {j j'}, ScanStops memory p m j → ScanStops memory p m j' → ¬ j < j' := by
    intro j j' h h' hlt
    obtain ⟨hmem, hp⟩ := h'.before j hlt
    have hj' := h'.le
    rcases h.at_stop (by omega) with hm | hp'
    · rw [hmem] at hm
      cases hm
    · rw [hp] at hp'
      cases hp'
  have h1 := hle h h'
  have h2 := hle h' h
  omega

theorem ScanStops.succ {p : ℕ → Bool} (h0 : memory 0 = true) (hp : p 0 = false)
    (h : ScanStops (fun x => memory (x + 1)) (fun x => p (x + 1)) m j) : ScanStops memory p (m + 1) (j + 1) := by
  refine ⟨Nat.succ_le_succ h.le, fun l hl => ?_, fun hlt => h.at_stop (by omega)⟩
  cases l with
  | zero => exact ⟨h0, hp⟩
  | succ l => exact h.before l (by omega)

/-- The answers that a scan of `m` slots has used when it stops at `j`. -/
def answers (m j : ℕ) : ℕ := min (j + 1) m

/-- What a scan returns when it stops `l` slots behind the slot `j`, with `r` slots from there on. -/
structure ScanResult (s : Fs) (p : DirEntry → Bool) (c : List UInt8) (j r l : ℕ) (res : Bool × ℕ × List UInt8) (t : Fs) : Prop where
  stops : ScanStops s.memory (fun x => p (entryAt c (j + x))) r l
  found : res.1 = true ↔ l < r ∧ s.memory l = true ∧ p (entryAt c (j + l)) = true
  offset : res.2.1 = 20 * (j + l)
  length_eq : res.2.2.length = 20
  entry : res.1 = true → res.2.2 = (c.drop (20 * (j + l))).take 20
  state : t = s.withMemory fun x => s.memory (answers r l + x)

theorem scanLoop_exact (p : DirEntry → Bool) (hc : c.length = 20 * m) :
    ∀ (r fuel j : ℕ) (e : List UInt8) (s : Fs), Content s i n c → e.length = 20 → j + r = m → r < fuel →
      Prog.Returns (scanLoop i p fuel (20 * j) e) s fun res t => ∃ l, ScanResult s p c j r l res t
  | _, 0, _, _, _, _, _, _, hf => absurd hf (Nat.not_lt_zero _)
  | 0, fuel + 1, j, e, s, h, he, hj, _ => by
    obtain rfl : j = m := hj
    refine .bind_run (h.readEnd hc) ?_
    refine .pure ⟨0, ⟨le_rfl, nofun, nofun⟩, ?_, rfl, ?_, nofun, ?_⟩
    · simp
    · rwa [overwrite_nil]
    · simp only [answers, Nat.min_zero, Nat.zero_add]
      rfl
  | r + 1, fuel + 1, j, e, s, h, he, hj, hf => by
    have hlt : j < m := by omega
    have hlen := length_entry hc.ge hlt
    refine .bind_run (h.readEntry hc.ge hlt) ?_
    have hstate : (fun x => s.memory (answers (r + 1) 0 + x)) = fun x => s.memory (x + 1) := by
      funext x
      rw [answers, Nat.min_eq_left (by omega), Nat.zero_add, Nat.add_comm]
    cases hm : s.memory 0 with
    | false =>
      rw [if_neg Bool.false_ne_true, if_neg (by decide)]
      refine .pure ⟨0, ⟨Nat.zero_le _, nofun, fun _ => .inl hm⟩, ?_, rfl, ?_, nofun, by rw [hstate]⟩
      · simp [hm]
      · rwa [overwrite_nil]
    | true =>
      have hover : overwrite e 0 ((c.drop (20 * j)).take 20) = (c.drop (20 * j)).take 20 := by
        unfold overwrite
        rw [hlen, take_zero, nil_append, drop_of_length_le (l := e) (by omega), append_nil]
      rw [if_pos rfl]
      rw [if_pos hlen, hover]
      by_cases hp : p (entryAt c j) = true
      · rw [if_pos (show p (.ofBytes ((c.drop (20 * j)).take 20)) = true from hp)]
        exact .pure ⟨0, ⟨Nat.zero_le _, nofun, fun _ => .inr hp⟩, by simp [hm, hp], rfl, hlen, fun _ => rfl, by rw [hstate]⟩
      · rw [if_neg (show ¬ p (.ofBytes ((c.drop (20 * j)).take 20)) = true from hp)]
        refine (scanLoop_exact p hc r fuel (j + 1) _ (s.withMemory fun n => s.memory (n + 1)) (h.congr ⟨_, rfl⟩) hlen (by omega)
          (by omega)).mono ?_
        rintro res t ⟨l, hstops, hfound, hofs, hlen', hentry, hst⟩
        have hshift : ∀ x, j + 1 + x = j + (x + 1) := fun x => by omega
        simp only [hshift] at hstops hfound hofs hentry
        refine ⟨l + 1, hstops.succ hm (Bool.eq_false_iff.2 hp), ?_, hofs, hlen', hentry, ?_⟩
        · rw [hfound, Nat.succ_lt_succ_iff]
          rfl
        · rw [hst]
          have hmem : (fun x => s.memory (answers r l + x + 1)) = fun x => s.memory (answers (r + 1) (l + 1) + x) := by
            funext x
            congr 1
            unfold answers
            omega
          exact congrArg s.withMemory hmem

/-- **A scan of the directory**, whatever `malloc` answers. -/
theorem scanDir_exact (p : DirEntry → Bool) (h : Content s dir.inode n c) (hc : c.length = 20 * m) :
    Prog.Returns (scanDir dir p) s fun res t => ∃ l, ScanResult s p c 0 m l res t := by
  refine .bind_run (getInode_run h.get) ?_
  rw [h.length_eq]
  exact scanLoop_exact p hc m _ 0 (replicate 20 0) s h rfl (Nat.zero_add m) (by omega)

/-! ## Scans with memory -/

theorem scanLoop_run (hm : s.MemoryOk) (h : Content s i n c) (hc : c.length / 20 = m) :
    ∀ (r fuel j : ℕ) (e : List UInt8), e.length = 20 → j + r = m → r < fuel →
      (∃ k, j ≤ k ∧ k < m ∧ p (entryAt c k) = true ∧
        (scanLoop i p fuel (20 * j) e).run s = .ok ((true, 20 * k, (c.drop (20 * k)).take 20), s)) ∨
      ((∀ k, j ≤ k → k < m → p (entryAt c k) = false) ∧
        ∃ e', e'.length = 20 ∧ (scanLoop i p fuel (20 * j) e).run s = .ok ((false, 20 * m, e'), s))
  | _, 0, _, _, _, _, hf => absurd hf (Nat.not_lt_zero _)
  | 0, fuel + 1, j, e, he, hj, _ => by
    obtain rfl : j = m := hj
    have hread : (inodeReadAt i 20 (20 * j)).run s = .ok ((c.drop (20 * j)).take 20, s) := h.read hm 20 (20 * j)
    have hlen : ((c.drop (20 * j)).take 20).length < 20 := by
      rw [length_take, length_drop]
      omega
    refine .inr ⟨fun k h1 h2 => by omega, overwrite e 0 ((c.drop (20 * j)).take 20), ?_, ?_⟩
    · rw [length_overwrite (by omega), he]
    · unfold scanLoop
      rw [run_bind_ok hread]
      rw [if_neg hlen.ne]
      rfl
  | r + 1, fuel + 1, j, e, he, hj, hf => by
    have hlt : j < m := by omega
    have hread : (inodeReadAt i 20 (20 * j)).run s = .ok ((c.drop (20 * j)).take 20, s) := h.read hm 20 (20 * j)
    have hlen : ((c.drop (20 * j)).take 20).length = 20 := length_entry (by omega) hlt
    have hover : overwrite e 0 ((c.drop (20 * j)).take 20) = (c.drop (20 * j)).take 20 := by
      unfold overwrite
      rw [hlen, take_zero, nil_append, drop_of_length_le (l := e) (by omega), append_nil]
    unfold scanLoop
    rw [run_bind_ok hread]
    rw [if_pos hlen, hover]
    by_cases hp : p (entryAt c j) = true
    · rw [if_pos (show p (.ofBytes ((c.drop (20 * j)).take 20)) = true from hp)]
      exact .inl ⟨j, le_rfl, hlt, hp, rfl⟩
    · rw [if_neg (show ¬ p (.ofBytes ((c.drop (20 * j)).take 20)) = true from hp)]
      rcases scanLoop_run hm h hc r fuel (j + 1) _ hlen (by omega) (by omega) with
        ⟨k, hjk, hk, hpk, hrun⟩ | ⟨hno, e', he', hrun⟩
      · exact .inl ⟨k, by omega, hk, hpk, hrun⟩
      · refine .inr ⟨fun k h1 h2 => ?_, e', he', hrun⟩
        rcases Nat.eq_or_lt_of_le h1 with rfl | h1
        · exact Bool.eq_false_iff.2 hp
        · exact hno k h1 h2

theorem scanDir_run (hm : s.MemoryOk) (h : Content s dir.inode n c) (hc : c.length / 20 = m) :
    (∃ k < m, p (entryAt c k) = true ∧
      (scanDir dir p).run s = .ok ((true, 20 * k, (c.drop (20 * k)).take 20), s)) ∨
    ((∀ k < m, p (entryAt c k) = false) ∧ ∃ e, e.length = 20 ∧ (scanDir dir p).run s = .ok ((false, 20 * m, e), s)) := by
  unfold scanDir
  rw [run_bind_ok (getInode_run h.get), h.length_eq, Int.toNat_natCast, hc]
  refine (scanLoop_run (p := p) hm h hc m (m + 1) 0 (replicate 20 0) rfl (Nat.zero_add m) (Nat.lt_succ_self m)).imp ?_ ?_
  · rintro ⟨k, -, hk, hp, hrun⟩
    exact ⟨k, hk, hp, hrun⟩
  · rintro ⟨hno, e, he, hrun⟩
    exact ⟨fun k hk => hno k (Nat.zero_le k) hk, e, he, hrun⟩

/-- **`lookup`** finds an entry in use with the name, or there is none. -/
theorem lookup_run (dir : Dir) (hm : s.MemoryOk) (h : Content s dir.inode n c) (hc : c.length / 20 = m) (name : Name) :
    (∃ k < m, (entryAt c k).hasName name = true ∧
      (lookup dir name).run s = .ok (some (entryAt c k, 20 * k), s)) ∨
    ((∀ k < m, (entryAt c k).hasName name = false) ∧ (lookup dir name).run s = .ok (none, s)) := by
  unfold lookup
  rcases scanDir_run hm h hc with ⟨k, hk, hp, hrun⟩ | ⟨hno, e, -, hrun⟩
  · refine .inl ⟨k, hk, hp, ?_⟩
    rw [run_bind_ok hrun]
    rfl
  · refine .inr ⟨hno, ?_⟩
    rw [run_bind_ok hrun]
    rfl

theorem writeEntry_run (hm : s.MemoryOk) (h : Content s i n c) (hw : n.denyWriteCnt = 0) (hc : 20 * m ≤ c.length) (hk : k < m) (he : e.name.length = 15) :
    (inodeWriteAt i e.buffer 20 (20 * k)).run s =
      .ok (20, s.withDisk (store s.disk (512 * n.data.start + 20 * k) e.toBytes)) := by
  have hmin : min (20 : ℤ).toNat (c.length - 20 * k) = 20 := by omega
  rw [h.write hm hw, hmin, slice_buffer (DirEntry.length_toBytes he)]

/-- The name is valid and not in use, and an entry is free. -/
def Addable (m : ℕ) (c : List UInt8) (name : Name) : Prop :=
  name.val ≠ [] ∧ name.val.length ≤ 14 ∧ (∀ j < m, (entryAt c j).hasName name = false) ∧
    ∃ j < m, (entryAt c j).inUse = false

/-- **`dir_add`** uses a free entry, unless the name is in use or not valid or no entry is free; it then
    writes at most behind the last slot. -/
theorem dirAdd_cases (dir : Dir) (hm : s.MemoryOk) (h : Content s dir.inode n c) (hw : n.denyWriteCnt = 0)
    (hc : c.length / 20 = m) (name : Name) (inodeSector : ℕ) :
    (∃ k < m, (entryAt c k).inUse = false ∧ name.val ≠ [] ∧ name.val.length ≤ 14 ∧
      (∀ j < m, (entryAt c j).hasName name = false) ∧
      (dirAdd dir name inodeSector).run s =
        .ok (true, s.withDisk (store s.disk (512 * n.data.start + 20 * k)
          ((entryAt c k).renew name inodeSector).toBytes))) ∨
    ¬ Addable m c name ∧ ∃ l, 20 * m + l.length ≤ c.length ∧
      (dirAdd dir name inodeSector).run s = .ok (false, s.withDisk (store s.disk (512 * n.data.start + 20 * m) l)) := by
  have hsame : s.withDisk (store s.disk (512 * n.data.start + 20 * m) []) = s := by
    rw [store_nil]
    rfl
  unfold dirAdd
  by_cases hname : name.val = [] ∨ 14 < name.val.length
  · rw [if_pos hname]
    refine .inr ⟨fun hadd => hname.elim hadd.1 (Nat.not_lt.2 hadd.2.1), [], ?_, ?_⟩
    · rw [length_nil]
      omega
    · rw [hsame]
      rfl
  · rw [if_neg hname]
    rcases lookup_run dir hm h hc name with ⟨k, hk, hused, hrun⟩ | ⟨hno, hrun⟩
    · rw [run_bind_ok hrun]
      refine .inr ⟨fun hadd => ?_, [], ?_, ?_⟩
      · rw [hadd.2.2.1 k hk] at hused
        cases hused
      · rw [length_nil]
        omega
      · rw [hsame]
        rfl
    · rw [run_bind_ok hrun]
      rcases scanDir_run (p := fun e => !e.inUse) hm h hc with ⟨k, hk, hfree, hscan⟩ | ⟨hfull, e, -, hscan⟩
      · have hlen : ((entryAt c k).renew name inodeSector).name.length = 15 :=
          length_strlcpy (by omega) (length_name_ofBytes (length_entry (by omega) hk))
        refine .inl ⟨k, hk, by simpa using hfree, fun h0 => hname (.inl h0), by omega, hno, ?_⟩
        rw [run_bind_ok hscan]
        exact (run_bind_ok (writeEntry_run hm h hw (by omega) hk hlen)).trans rfl
      · refine .inr ⟨fun hadd => ?_, slice ((DirEntry.ofBytes e).renew name inodeSector).buffer 0 (c.length - 20 * m), ?_, ?_⟩
        · obtain ⟨k, hk, hfree⟩ := hadd.2.2.2
          have := hfull k hk
          rw [hfree] at this
          cases this
        · rw [length_slice]
          omega
        · have hmin : min (20 : ℤ).toNat (c.length - 20 * m) = c.length - 20 * m := by omega
          have hshort : (c.length - 20 * m == 20) = false := beq_eq_false_iff_ne.2 (by omega)
          rw [run_bind_ok hscan, run_bind_ok (h.write hm hw _ _ _), hmin]
          dsimp only
          rw [hshort]
          rfl

theorem dirAdd_run (dir : Dir) (hm : s.MemoryOk) (h : Content s dir.inode n c) (hw : n.denyWriteCnt = 0)
    (hc : c.length = 20 * m) (name : Name) (inodeSector : ℕ) :
    (∃ k < m, (entryAt c k).inUse = false ∧ name.val ≠ [] ∧ name.val.length ≤ 14 ∧
      (∀ j < m, (entryAt c j).hasName name = false) ∧
      (dirAdd dir name inodeSector).run s =
        .ok (true, s.withDisk (store s.disk (512 * n.data.start + 20 * k)
          ((entryAt c k).renew name inodeSector).toBytes))) ∨
    ¬ Addable m c name ∧ (dirAdd dir name inodeSector).run s = .ok (false, s) := by
  refine (dirAdd_cases dir hm h hw (by omega) name inodeSector).imp_right ?_
  rintro ⟨hno, l, hl, hrun⟩
  obtain rfl : l = [] := eq_nil_of_length_eq_zero (by omega)
  rw [store_nil] at hrun
  exact ⟨hno, hrun⟩

end

end Pintos
