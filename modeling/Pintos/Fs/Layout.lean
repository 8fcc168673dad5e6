/-
  The layout of the disk.

  A `Node` is an inode with its content.  `Stored` says that a node is on the disk, the inode in its sector
  and the content in the sectors from `start` on.
-/
import Pintos.Fs.Inode

namespace Pintos

open Lib Function List

structure Node where
  start : ℕ
  content : List UInt8

/-- The nodes by the sectors of their inodes. -/
abbrev Nodes := ℕ → Option Node

namespace Node

def data (n : Node) : InodeDisk := ⟨n.start, n.content.length, inodeMagic⟩

def sectors (n : Node) : ℕ := sectorsOf n.content.length

/-- The sector is one of the content. -/
def Has (n : Node) (x : ℕ) : Prop := n.start ≤ x ∧ x < n.start + n.sectors

end Node

/-- The node is on the disk. -/
structure Stored (disk : ℕ → UInt8) (k : ℕ) (n : Node) : Prop where
  inode : slice disk (512 * k) 512 = n.data.toBytes
  content : slice disk (512 * n.start) n.content.length = n.content

def AllStored (disk : ℕ → UInt8) (nodes : Nodes) : Prop := ∀ k n, nodes k = some n → Stored disk k n

/-- The sectors of the nodes are apart, inside the device and marked. -/
structure Layout (size : ℕ) (bits : ℕ → Bool) (nodes : Nodes) : Prop where
  length_lt : ∀ {k n}, nodes k = some n → n.content.length + 511 < 2 ^ 31
  inode_lt : ∀ {k n}, nodes k = some n → k < size
  data_le : ∀ {k n}, nodes k = some n → n.start + n.sectors ≤ size
  inode_marked : ∀ {k n}, nodes k = some n → bits k = true
  data_marked : ∀ {k n x}, nodes k = some n → n.Has x → bits x = true
  inode_data : ∀ {k k' n n'}, nodes k = some n → nodes k' = some n' → ¬ n'.Has k
  data_data : ∀ {k k' n n' x}, nodes k = some n → nodes k' = some n' → n.Has x → n'.Has x → k = k'

variable {size k : ℕ} {bits bits' : ℕ → Bool} {nodes : Nodes} {disk disk' : ℕ → UInt8} {n : Node}

/-! ## Stored nodes -/

theorem Stored.congr (h : Stored disk k n) (hd : ∀ x, x / 512 = k ∨ n.Has (x / 512) → disk' x = disk x) :
    Stored disk' k n := by
  refine ⟨?_, ?_⟩
  · rw [← h.inode]
    exact slice_congr fun i hi => hd _ (.inl (by omega))
  · rw [slice_congr fun i hi => hd (512 * n.start + i) (.inr _), h.content]
    unfold Node.Has Node.sectors sectorsOf
    omega

theorem Stored.ofBytes (h : Stored disk k n) (hl : Layout size bits nodes) (hsize : size ≤ 2 ^ 31)
    (hn : nodes k = some n) : InodeDisk.ofBytes (slice disk (512 * k) 512) = n.data := by
  have h1 := hl.length_lt hn
  have h2 := hl.data_le hn
  rw [h.inode]
  refine InodeDisk.ofBytes_toBytes ?_ ?_ ?_ ?_
  · change n.start < _
    omega
  · exact Int.natCast_nonneg _
  · change ((n.content.length : ℕ) : ℤ) < _
    omega
  · change inodeMagic < _
    decide

theorem store_apply_of_not_has {x ofs : ℕ} {l : List UInt8} (h : ofs + l.length ≤ n.content.length)
    (hx : ¬ n.Has (x / 512)) : store disk (512 * n.start + ofs) l x = disk x := by
  unfold Node.Has Node.sectors sectorsOf at hx
  rcases Nat.lt_or_ge x (512 * n.start + ofs) with hlt | hge
  · exact store_apply_of_lt hlt
  · exact store_apply_of_ge (by omega)

/-- **Overwriting** a part of the content of one node. -/
theorem AllStored.write {ofs : ℕ} {l : List UInt8} (h : AllStored disk nodes) (hl : Layout size bits nodes)
    (hn : nodes k = some n) (hle : ofs + l.length ≤ n.content.length) :
    AllStored (store disk (512 * n.start + ofs) l)
      (update nodes k (some ⟨n.start, overwrite n.content ofs l⟩)) := by
  intro k' n' hn'
  rw [update_apply] at hn'
  split_ifs at hn' with hk
  · cases hn'
    have hlen : (overwrite n.content ofs l).length = n.content.length := length_overwrite hle
    refine ⟨?_, ?_⟩
    · unfold Node.data
      rw [hlen, hk]
      refine Eq.trans (slice_congr fun i hi => ?_) (h _ _ hn).inode
      refine store_apply_of_not_has hle ?_
      rw [show (512 * k + i) / 512 = k by omega]
      exact hl.inode_data hn hn
    · rw [hlen, slice_store_within hle, (h _ _ hn).content]
  · refine (h _ _ hn').congr fun x hx => store_apply_of_not_has hle ?_
    rcases hx with hx | hx
    · rw [hx]
      exact hl.inode_data hn' hn
    · exact fun hx' => hk (hl.data_data hn' hn hx hx')

theorem AllStored.erase (h : AllStored disk nodes) : AllStored disk (update nodes k none) := by
  intro k' n' hn'
  rw [update_apply] at hn'
  split_ifs at hn'
  exact h _ _ hn'

/-- **A new node**, whose sectors are those of no other. -/
theorem AllStored.insert {start len : ℕ} (h : AllStored disk nodes)
    (hk : ∀ {k' n'}, nodes k' = some n' → k' ≠ k ∧ ¬ n'.Has k)
    (hx : ∀ {k' n' x}, nodes k' = some n' → start ≤ x → x < start + sectorsOf len → k' ≠ x ∧ ¬ n'.Has x)
    (hself : ¬ (start ≤ k ∧ k < start + sectorsOf len)) :
    AllStored (newInode disk k start len)
      (update nodes k (some ⟨start, List.replicate len 0⟩)) := by
  have hout : ∀ x, x / 512 ≠ k → ¬ (start ≤ x / 512 ∧ x / 512 < start + sectorsOf len) →
      newInode disk k start len x = disk x := by
    intro x h1 h2
    unfold newInode
    rcases Nat.lt_or_ge x (512 * start) with hlt | hge
    · rw [store_apply_of_lt hlt]
      rcases Nat.lt_or_ge x (512 * k) with hlt' | hge'
      · exact store_apply_of_lt hlt'
      · exact store_apply_of_ge (by rw [InodeDisk.length_toBytes]; omega)
    · rw [store_apply_of_ge (by rw [length_replicate]; omega)]
      rcases Nat.lt_or_ge x (512 * k) with hlt' | hge'
      · exact store_apply_of_lt hlt'
      · exact store_apply_of_ge (by rw [InodeDisk.length_toBytes]; omega)
  intro k' n' hn'
  rw [update_apply] at hn'
  split_ifs at hn' with hk'
  · cases hn'
    subst hk'
    refine ⟨?_, ?_⟩
    · unfold newInode
      rw [slice_store_of_disjoint (by rw [length_replicate]; omega)]
      have := slice_store_self (f := disk) (a := 512 * k') (l := (⟨start, len, inodeMagic⟩ : InodeDisk).toBytes)
      rw [InodeDisk.length_toBytes] at this
      unfold Node.data
      rwa [length_replicate]
    · unfold newInode
      dsimp only
      have hsplit : 512 * sectorsOf len = len + (512 * sectorsOf len - len) := by unfold sectorsOf; omega
      rw [hsplit, replicate_add, store_append, length_replicate, slice_store_of_disjoint (by omega)]
      have := slice_store_self (f := store disk (512 * k') (⟨start, len, inodeMagic⟩ : InodeDisk).toBytes)
        (a := 512 * start) (l := replicate len (0 : UInt8))
      rwa [length_replicate] at this
  · refine (h _ _ hn').congr fun x hx' => hout x ?_ ?_
    · rintro rfl
      rcases hx' with hx' | hx'
      · exact (hk hn').1 hx'.symm
      · exact (hk hn').2 hx'
    · rintro ⟨h1, h2⟩
      obtain ⟨h3, h4⟩ := hx hn' h1 h2
      rcases hx' with hx' | hx'
      · exact h3 hx'.symm
      · exact h4 hx'

/-! ## Layouts -/

namespace Layout

theorem write {c : List UInt8} (h : Layout size bits nodes) (hn : nodes k = some n)
    (hlen : c.length = n.content.length) :
    Layout size bits (update nodes k (some ⟨n.start, c⟩)) := by
  -- each node has an old one with the same sectors
  have hold : ∀ {k' n'}, update nodes k (some ⟨n.start, c⟩) k' = some n' →
      ∃ m, nodes k' = some m ∧ m.content.length = n'.content.length ∧ m.start = n'.start ∧
        (∀ x, n'.Has x ↔ m.Has x) := by
    intro k' n' hn'
    rw [update_apply] at hn'
    split_ifs at hn' with hk
    · cases hn'
      refine ⟨n, hk ▸ hn, hlen.symm, rfl, fun x => ?_⟩
      unfold Node.Has Node.sectors
      rw [hlen]
    · exact ⟨n', hn', rfl, rfl, fun x => Iff.rfl⟩
  refine ⟨?_, ?_, ?_, ?_, ?_, ?_, ?_⟩
  · intro k' n' hn'
    obtain ⟨m, hm, h1, -⟩ := hold hn'
    rw [← h1]
    exact h.length_lt hm
  · intro k' n' hn'
    obtain ⟨m, hm, -⟩ := hold hn'
    exact h.inode_lt hm
  · intro k' n' hn'
    obtain ⟨m, hm, h1, h2, -⟩ := hold hn'
    have := h.data_le hm
    unfold Node.sectors at this ⊢
    rwa [← h1, ← h2]
  · intro k' n' hn'
    obtain ⟨m, hm, -⟩ := hold hn'
    exact h.inode_marked hm
  · intro k' n' x hn' hx
    obtain ⟨m, hm, -, -, hhas⟩ := hold hn'
    exact h.data_marked hm ((hhas x).1 hx)
  · intro k1 k2 n1 n2 h₁ h₂ hx
    obtain ⟨m1, hm1, -⟩ := hold h₁
    obtain ⟨m2, hm2, -, -, hhas⟩ := hold h₂
    exact h.inode_data hm1 hm2 ((hhas _).1 hx)
  · intro k1 k2 n1 n2 x h₁ h₂ hx1 hx2
    obtain ⟨m1, hm1, -, -, hhas1⟩ := hold h₁
    obtain ⟨m2, hm2, -, -, hhas2⟩ := hold h₂
    exact h.data_data hm1 hm2 ((hhas1 x).1 hx1) ((hhas2 x).1 hx2)

theorem erase (h : Layout size bits nodes) : Layout size bits (update nodes k none) := by
  have hold : ∀ {k' n'}, update nodes k none k' = some n' → nodes k' = some n' := by
    intro k' n' hn'
    rw [update_apply] at hn'
    split_ifs at hn'
    exact hn'
  exact ⟨fun h₁ => h.length_lt (hold h₁), fun h₁ => h.inode_lt (hold h₁), fun h₁ => h.data_le (hold h₁),
    fun h₁ => h.inode_marked (hold h₁), fun h₁ => h.data_marked (hold h₁),
    fun h₁ h₂ => h.inode_data (hold h₁) (hold h₂), fun h₁ h₂ => h.data_data (hold h₁) (hold h₂)⟩

theorem mark (h : Layout size bits nodes) (hk : ∀ {k n}, nodes k = some n → bits' k = true)
    (hx : ∀ {k n x}, nodes k = some n → n.Has x → bits' x = true) : Layout size bits' nodes :=
  ⟨h.length_lt, h.inode_lt, h.data_le, hk, hx, h.inode_data, h.data_data⟩

theorem insert (h : Layout size bits nodes) (hlen : n.content.length + 511 < 2 ^ 31) (hlt : k < size)
    (hle : n.start + n.sectors ≤ size) (hkm : bits k = true) (hxm : ∀ {x}, n.Has x → bits x = true)
    (hk : ∀ {k' n'}, nodes k' = some n' → k' ≠ k ∧ ¬ n'.Has k)
    (hx : ∀ {k' n' x}, nodes k' = some n' → n.Has x → k' ≠ x ∧ ¬ n'.Has x) (hself : ¬ n.Has k) :
    Layout size bits (update nodes k (some n)) := by
  have hold : ∀ {k' n'}, update nodes k (some n) k' = some n' →
      k' = k ∧ n' = n ∨ nodes k' = some n' := by
    intro k' n' hn'
    rw [update_apply] at hn'
    split_ifs at hn' with hk'
    · exact .inl ⟨hk', (Option.some.inj hn').symm⟩
    · exact .inr hn'
  refine ⟨?_, ?_, ?_, ?_, ?_, ?_, ?_⟩
  · intro k' n' hn'
    rcases hold hn' with ⟨-, rfl⟩ | hn'
    · exact hlen
    · exact h.length_lt hn'
  · intro k' n' hn'
    rcases hold hn' with ⟨rfl, -⟩ | hn'
    · exact hlt
    · exact h.inode_lt hn'
  · intro k' n' hn'
    rcases hold hn' with ⟨-, rfl⟩ | hn'
    · exact hle
    · exact h.data_le hn'
  · intro k' n' hn'
    rcases hold hn' with ⟨rfl, -⟩ | hn'
    · exact hkm
    · exact h.inode_marked hn'
  · intro k' n' x hn'
    rcases hold hn' with ⟨-, rfl⟩ | hn'
    · exact hxm
    · exact h.data_marked hn'
  · intro k1 k2 n1 n2 h₁ h₂
    rcases hold h₁ with ⟨rfl, -⟩ | h1' <;> rcases hold h₂ with ⟨-, rfl⟩ | h2'
    · exact hself
    · exact (hk h2').2
    · exact fun hhas => (hx h1' hhas).1 rfl
    · exact h.inode_data h1' h2'
  · intro k1 k2 n1 n2 x h₁ h₂ hx1 hx2
    rcases hold h₁ with ⟨rfl, rfl⟩ | h1' <;> rcases hold h₂ with ⟨rfl, rfl⟩ | h2'
    · rfl
    · exact absurd hx2 (hx h2' hx1).2
    · exact absurd hx1 (hx h1' hx2).2
    · exact h.data_data h1' h2' hx1 hx2

end Layout

end Pintos
