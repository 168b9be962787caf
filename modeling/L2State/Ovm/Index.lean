import L2State.Migrate.DirectWriter

/-!
# L2State — the evidence index of the OVM conversion

`ovmIndex` of `ovm_input.go`: a temporary database with one namespace per kind
of evidence, written through a batch. Reads see the database only, not the
batch.

* `Store.under` — the entries of a namespace in key order, as an iterator over
  the database yields them.
* `OvmIndex` — the database and the pending batch; `content` is what the
  database holds once the batch is flushed.
* `ovmBalanceSlot`, `ovmAllowanceSlot`, `ovmStorageHash` — where the token
  contract keeps balances and allowances.
* `addressOps`, `allowanceOps` — the writes of `ovmIndex.address` and
  `ovmIndex.allowance`.
-/

namespace L2State

open Lib

/-! ## Namespaces of a database -/

/-- The byte of an ASCII character. -/
def tag (c : Char) : Byte := lowByte c.toNat

/-- The rest of a key after `pre`, if it starts with `pre`. -/
def afterPrefix (pre k : Bytes) : Option Bytes :=
  if pre.isPrefixOf k then some (k.drop pre.length) else none

theorem afterPrefix_eq_some {pre k rest : Bytes} :
    afterPrefix pre k = some rest ↔ k = pre ++ rest := by
  unfold afterPrefix
  constructor
  · intro h
    split at h
    · next hPre =>
      obtain ⟨t, rfl⟩ := List.isPrefixOf_iff_prefix.mp hPre
      obtain rfl : t = rest := by simpa using h
      rfl
    · cases h
  · rintro rfl
    simp

theorem lt_of_append_lt {pre a b : Bytes} (h : pre ++ a < pre ++ b) : a < b := by
  induction pre with
  | nil => exact h
  | cons x pre ih => exact ih (by simpa using h)

/-- `NewIterator(pre, nil)`: the entries under `pre` in key order, without the
prefix. -/
def Store.under (db : Store) (pre : Bytes) : List (Bytes × Bytes) :=
  db.entries.filterMap fun e => (afterPrefix pre e.1).map fun k => (k, e.2)

theorem Store.mem_under {db : Store} {pre k v : Bytes} :
    (k, v) ∈ Store.under db pre ↔ SortedMap.get? db (pre ++ k) = some v := by
  rw [SortedMap.get?_eq_some_iff, under, List.mem_filterMap]
  constructor
  · rintro ⟨⟨k', v'⟩, hMem, hEq⟩
    obtain ⟨rest, hRest, hPair⟩ := Option.map_eq_some_iff.mp hEq
    obtain ⟨rfl, rfl⟩ := Prod.mk.inj hPair
    rw [afterPrefix_eq_some] at hRest
    exact hRest ▸ hMem
  · intro hMem
    refine ⟨(pre ++ k, v), hMem, ?_⟩
    rw [Option.map_eq_some_iff]
    exact ⟨k, afterPrefix_eq_some.mpr rfl, rfl⟩

/-- The keys of a namespace increase. -/
theorem Store.under_pairwise (db : Store) (pre : Bytes) :
    (Store.under db pre).Pairwise fun a b => a.1 < b.1 := by
  refine List.Pairwise.filterMap _ (fun e e' hlt b hb b' hb' => ?_) db.sorted
  obtain ⟨k, hk, rfl⟩ := Option.map_eq_some_iff.mp hb
  obtain ⟨k', hk', rfl⟩ := Option.map_eq_some_iff.mp hb'
  rw [afterPrefix_eq_some] at hk hk'
  rw [hk, hk'] at hlt
  exact lt_of_append_lt hlt

/-- A namespace is determined by its lookups. -/
theorem Store.under_congr {db db' : Store} {pre : Bytes}
    (h : ∀ k, SortedMap.get? db (pre ++ k) = SortedMap.get? db' (pre ++ k)) :
    Store.under db pre = Store.under db' pre := by
  have hMem : ∀ e, e ∈ Store.under db pre ↔ e ∈ Store.under db' pre := by
    rintro ⟨k, v⟩
    rw [Store.mem_under, Store.mem_under, h]
  have hNodup : ∀ db : Store, (Store.under db pre).Nodup := fun db =>
    (Store.under_pairwise db pre).imp fun hlt hEq => absurd (hEq ▸ hlt) (lt_irrefl _)
  refine List.Perm.eq_of_pairwise ?_ (Store.under_pairwise db pre) (Store.under_pairwise db' pre)
    ((List.perm_ext_iff_of_nodup (hNodup db) (hNodup db')).mpr hMem)
  intro a b _ _ hab hba
  exact absurd hab (lt_asymm hba)

/-! ## The index -/

/-- `ovmIndex`. -/
structure OvmIndex where
  db    : Store
  batch : List DbOp
deriving DecidableEq

namespace OvmIndex

/-- `flush`. -/
def flush (i : OvmIndex) : OvmIndex := ⟨applyOps i.db i.batch, []⟩

/-- One write; a batch that has reached `ethdb.IdealBatchSize` is flushed. -/
def push (i : OvmIndex) (op : DbOp) : OvmIndex :=
  if ((i.batch ++ [op]).map opSize).sum < idealBatchSize then ⟨i.db, i.batch ++ [op]⟩
  else (OvmIndex.mk i.db (i.batch ++ [op])).flush

/-- `put`. -/
def put (i : OvmIndex) (ns : Char) (key value : Bytes) : OvmIndex :=
  i.push (.put (tag ns :: key) value)

/-- `get`: the batch is not consulted. -/
def get (i : OvmIndex) (ns : Char) (key : Bytes) : Option Bytes := i.db.get? (tag ns :: key)

/-- What the database holds once the batch is flushed. -/
def content (i : OvmIndex) : Store := applyOps i.db i.batch

@[simp] theorem content_flush (i : OvmIndex) : i.flush.content = i.content := rfl

@[simp] theorem flush_db (i : OvmIndex) : i.flush.db = i.content := rfl

@[simp] theorem flush_batch (i : OvmIndex) : i.flush.batch = [] := rfl

theorem content_push (i : OvmIndex) (op : DbOp) :
    (i.push op).content = applyOps i.content [op] := by
  unfold push
  split
  · exact applyOps_append _ _ _
  · exact applyOps_append _ _ _

theorem content_put (i : OvmIndex) (ns : Char) (key value : Bytes) :
    (i.put ns key value).content = i.content.insert (tag ns :: key) value := content_push i _

/-- A list of writes. -/
def pushAll (i : OvmIndex) (ops : List DbOp) : OvmIndex := ops.foldl push i

theorem content_pushAll (i : OvmIndex) (ops : List DbOp) :
    (i.pushAll ops).content = applyOps i.content ops := by
  induction ops generalizing i with
  | nil => rfl
  | cons op ops ih =>
    show ((i.push op).pushAll ops).content = _
    rw [ih, content_push, ← applyOps_append]
    rfl

/-- On the keys that pass the test, the index has what `db` has, and no pending
write touches them. -/
structure Settled (p : Bytes → Bool) (db : Store) (i : OvmIndex) : Prop where
  stored  : ∀ k, p k = true → i.db.get? k = db.get? k
  pending : ∀ op ∈ i.batch, p op.key = false

namespace Settled

variable {p : Bytes → Bool} {db : Store} {i : OvmIndex}

theorem content (h : i.Settled p db) {k : Bytes} (hk : p k = true) :
    i.content.get? k = db.get? k := by
  rw [OvmIndex.content, get?_applyOps_of_untouched, h.stored k hk]
  intro op hop hEq
  exact absurd (h.pending op hop) (by simp [hEq, hk])

theorem flush (h : i.Settled p db) : i.flush.Settled p db where
  stored _ hk := h.content hk
  pending := by simp

theorem push (h : i.Settled p db) {op : DbOp} (hop : p op.key = false) :
    (i.push op).Settled p db := by
  have hNext : Settled p db ⟨i.db, i.batch ++ [op]⟩ := by
    refine ⟨h.stored, fun o ho => ?_⟩
    rcases List.mem_append.mp ho with ho | ho
    · exact h.pending o ho
    · rwa [List.mem_singleton.mp ho]
  unfold OvmIndex.push
  split
  · exact hNext
  · exact hNext.flush

theorem pushAll (h : i.Settled p db) {ops : List DbOp} (hops : ∀ op ∈ ops, p op.key = false) :
    (i.pushAll ops).Settled p db := by
  induction ops generalizing i with
  | nil => exact h
  | cons op ops ih =>
    refine ih (h.push (hops op List.mem_cons_self)) fun o ho => ?_
    exact hops o (List.mem_cons_of_mem _ ho)

end Settled

theorem settled_flush (p : Bytes → Bool) (i : OvmIndex) : i.flush.Settled p i.content :=
  ⟨fun _ _ => rfl, by simp⟩

theorem pushAll_append (i : OvmIndex) (a b : List DbOp) :
    i.pushAll (a ++ b) = (i.pushAll a).pushAll b := List.foldl_append

end OvmIndex

/-! ## Where the token keeps its amounts -/

/-- `ovmETHAddress`. -/
def ovmETHAddress : Address :=
  ⟨toBE 20 0xDeadDeAddeAddEAddeadDEaDDEAdDeaDDeAD0000, length_toBE 20 _⟩

section Slots

variable (g : Geth)

/-- The mapping slot of a key at the position `base`. -/
def mappingSlot (key base : Bytes) : Hash := g.keccak (leftPad key 32 ++ base)

/-- `ovmBalanceSlot`: the balances are the mapping at position 0. -/
def ovmBalanceSlot (address : Address) : Hash := mappingSlot g address.bytes (List.replicate 32 0)

/-- The slot of an allowance in the mapping at position 1. -/
def ovmAllowanceSlot (owner spender : Address) : Hash :=
  mappingSlot g spender.bytes (mappingSlot g owner.bytes (leftPad [1] 32)).bytes

/-- `ovmStorageHash`. -/
def ovmStorageHash (slot : Hash) : Hash := g.keccak slot.bytes

/-- The key of an address's balance in the storage trie. -/
def balanceKey (address : Address) : Hash := ovmStorageHash g (ovmBalanceSlot g address)

/-- The key of an account in the account trie. -/
def accountKey (address : Address) : Hash := g.keccak address.bytes

/-- The write of `ovmIndex.address`. -/
def addressOps (address : Address) : List DbOp :=
  [.put (tag 'b' :: (balanceKey g address).bytes) address.bytes]

/-- The writes of `ovmIndex.allowance`. -/
def allowanceOps (owner spender : Address) : List DbOp :=
  addressOps g owner ++ addressOps g spender ++
    [.put (tag 'a' :: (ovmStorageHash g (ovmAllowanceSlot g owner spender)).bytes)
      (owner.bytes ++ spender.bytes)]

end Slots

namespace OvmIndex

/-- `ovmIndex.address`. -/
def address (g : Geth) (i : OvmIndex) (a : Address) : OvmIndex := i.pushAll (addressOps g a)

/-- `ovmIndex.allowance`. -/
def allowance (g : Geth) (i : OvmIndex) (owner spender : Address) : OvmIndex :=
  i.pushAll (allowanceOps g owner spender)

end OvmIndex

end L2State
