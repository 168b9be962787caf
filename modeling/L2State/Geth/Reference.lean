import L2State.Geth.Trie
import L2State.Lib.Rlp

/-!
# L2State — a reference trie

A concrete trie over any hash function. It references every child by hash; geth embeds a node of fewer than
32 bytes in its parent, so the two agree on tries without such nodes. All
nodes are emitted by `Hash`; a stack trie emits finished subtries earlier.

* `Shape`, `Shape.encode`, `Shape.decode` — leaf, extension and branch nodes
  and their RLP encoding.
* `build` — the root and the nodes below it, by recursion on the key length.
* `referenceGeth` — the trie functions of this construction.
-/

namespace L2State

open Lib

/-! ## Nibbles and compact keys -/

abbrev Nibble := Fin 16

def hiNibble (b : Byte) : Nibble := ⟨b.val / 16, highNibble_lt b⟩
def loNibble (b : Byte) : Nibble := ⟨b.val % 16, by omega⟩

/-- The nibbles of a key. -/
def nibbles : Bytes → List Nibble
  | [] => []
  | b :: bs => hiNibble b :: loNibble b :: nibbles bs

/-- The bytes of an even number of nibbles. -/
def pack : List Nibble → Bytes
  | a :: b :: rest => lowByte (a.val * 16 + b.val) :: pack rest
  | _ => []

/-- The compact encoding of a key fragment, with the leaf flag. -/
def compactKey (leaf : Bool) (key : List Nibble) : Bytes :=
  let flag := if leaf then 2 else 0
  match key with
  | [] => [lowByte (flag * 16)]
  | k :: rest =>
    if rest.length % 2 = 0 then lowByte ((flag + 1) * 16 + k.val) :: pack rest
    else lowByte (flag * 16) :: pack (k :: rest)

/-- Reads a compact key. -/
def decodeCompact : Bytes → Option (Bool × List Nibble)
  | [] => none
  | b :: rest =>
    let first := if b.val / 16 % 2 = 1 then [loNibble b] else []
    some (decide (2 ≤ b.val / 16), first ++ nibbles rest)

/-! ## Nodes -/

/-- A node whose children are referenced by hash. -/
inductive Shape
  | leaf (key : List Nibble) (value : Bytes)
  | ext (key : List Nibble) (child : Hash)
  | branch (children : Nibble → Option Hash)

namespace Shape

/-- The strings of the RLP list of a node. -/
def fields : Shape → List Bytes
  | leaf key value => [compactKey true key, value]
  | ext key child => [compactKey false key, child.bytes]
  | branch children =>
    (List.finRange 16).map (fun i => ((children i).map (·.bytes)).getD []) ++ [[]]

/-- The encoding of a node. -/
def encode (s : Shape) : Bytes := Rlp.encodeList (s.fields.flatMap Rlp.encodeString)

/-- The node of a list of strings. -/
def ofFields : List Bytes → Option Shape
  | [key, value] =>
    match decodeCompact key with
    | some (true, k) => some (.leaf k value)
    | some (false, k) => some (.ext k (.ofBytes 32 value))
    | none => none
  | l => some (.branch fun i =>
    if l.getD i.val [] = [] then none else some (.ofBytes 32 (l.getD i.val [])))

end Shape

/-- Reads a list of strings. -/
def readStrings : Nat → Bytes → Except Rlp.Error (List Bytes)
  | 0, _ => .ok []
  | n + 1, b =>
    if b = [] then .ok []
    else do
      let (c, rest) ← Rlp.bytesField b
      let cs ← readStrings n rest
      return c :: cs

theorem readStrings_flatMap {n : Nat} {cs : List Bytes}
    (hn : (cs.flatMap Rlp.encodeString).length ≤ n) (h64 : n < 2 ^ 64) :
    readStrings n (cs.flatMap Rlp.encodeString) = .ok cs := by
  induction cs generalizing n with
  | nil => cases n <;> simp [readStrings]
  | cons c cs ih =>
    have hPos := List.length_pos_iff.mpr (Rlp.encodeString_ne_nil c)
    have hLen := Rlp.length_le_encodeString c
    rw [List.flatMap_cons, List.length_append] at hn
    obtain ⟨m, rfl⟩ : ∃ m, n = m + 1 := ⟨n - 1, by omega⟩
    have hField : Rlp.bytesField (Rlp.encodeString c ++ cs.flatMap Rlp.encodeString) =
        .ok (c, cs.flatMap Rlp.encodeString) :=
      Rlp.bytesField_eq_ok_iff.mpr ⟨rfl, by omega⟩
    rw [List.flatMap_cons, readStrings, if_neg (by simp [Rlp.encodeString_ne_nil]), hField, ok_bind]
    dsimp only
    rw [ih (by omega) (by omega)]
    rfl

/-- Reads a node. -/
def Shape.decode (blob : Bytes) : Except Err Shape :=
  if blob.length < 2 ^ 64 then do
    let payload ← rlpResult (Rlp.listOnly blob)
    let fields ← rlpResult (readStrings payload.length payload)
    match Shape.ofFields fields with
    | some s => .ok s
    | none => .error (.outside "invalid trie node")
  else .error (.outside "trie node is too large")

/-! ## The trie over a list of leaves -/

/-- Leaves by the nibbles of their keys. -/
abbrev HexLeaves := List (List Nibble × Bytes)

/-- The leaves under a nibble, without it. -/
def under (i : Nibble) (l : HexLeaves) : HexLeaves :=
  l.filterMap fun e =>
    match e.1 with
    | [] => none
    | j :: k => if j = i then some (k, e.2) else none

/-- The node at a path. -/
def Shape.node (keccak : Bytes → Hash) (path : Bytes) (s : Shape) : TrieNode :=
  ⟨path, keccak s.encode, s.encode⟩

/-- Puts a nibble in front of a node: a branch stays a node of its own under
an extension, a leaf or an extension is folded. -/
def Shape.prepend (keccak : Bytes → Hash) (i : Nibble) : Shape → Shape
  | .leaf key value => .leaf (i :: key) value
  | .ext key child => .ext (i :: key) child
  | .branch children => .ext [i] (keccak (Shape.branch children).encode)

/-- Whether a node is folded by `prepend`. -/
def Shape.folds : Shape → Bool
  | .branch _ => false
  | _ => true

/-- The root of a trie, and the nodes strictly below it. -/
structure Subtrie where
  root  : Option Shape
  below : List TrieNode

namespace Subtrie

/-- All nodes of a trie whose root is at `path`. -/
def nodes (keccak : Bytes → Hash) (path : Bytes) (t : Subtrie) : List TrieNode :=
  t.below ++ (t.root.map (Shape.node keccak path)).toList

/-- The trie with one more nibble in front; `path` is where `t` starts. -/
def mount (keccak : Bytes → Hash) (path : Bytes) (i : Nibble) (t : Subtrie) : Subtrie where
  root  := t.root.map (Shape.prepend keccak i)
  below := t.below ++
    (t.root.bind fun s => if s.folds then none else some (s.node keccak path)).toList

/-- The trie with a branch over the given tries. -/
def join (keccak : Bytes → Hash) (path : Bytes) (is : List Nibble) (sub : Nibble → Subtrie) :
    Subtrie where
  root  := some (.branch fun i => (sub i).root.map fun s => keccak s.encode)
  below := is.flatMap fun i => (sub i).nodes keccak (path ++ [nibbleByte i])

end Subtrie

/-- The nibbles that a list of leaves starts with. -/
def populated (l : HexLeaves) : List Nibble := (List.finRange 16).filter fun i => under i l ≠ []

/-- The trie over leaves whose keys have `n` nibbles. -/
def build (keccak : Bytes → Hash) : Nat → Bytes → HexLeaves → Subtrie
  | 0, _, l => ⟨l.head?.map fun e => .leaf e.1 e.2, []⟩
  | n + 1, path, l =>
    match l with
    | [] => ⟨none, []⟩
    | [e] => ⟨some (.leaf e.1 e.2), []⟩
    | l =>
      match populated l with
      | [i] => (build keccak n (path ++ [nibbleByte i]) (under i l)).mount keccak
          (path ++ [nibbleByte i]) i
      | is => .join keccak path is fun i => build keccak n (path ++ [nibbleByte i]) (under i l)

/-! ## The reference functions -/

/-- Leaves with their keys in nibbles. -/
def hexLeaves (l : History) : HexLeaves := l.map fun e => (nibbles e.1, e.2)

/-- The checks of `StackTrie.Update`. -/
def stackUpdate (h : History) (k v : Bytes) : Except Err (List TrieNode) :=
  if v = [] then .error (.outside "trying to insert empty (deletion)")
  else
    match h.getLast? with
    | none => .ok []
    | some last => if last.1 < k then .ok [] else .error (.outside "non-ascending key order")

/-- The root hash and the nodes of a trie. -/
def trieHash (keccak : Bytes → Hash) (n : Nat) (path : Bytes) (l : HexLeaves) :
    Hash × List TrieNode :=
  (((build keccak n path l).root.map fun s => keccak s.encode).getD emptyRootHash,
    (build keccak n path l).nodes keccak path)

/-- The two header fields, out of the strings of the header list. -/
def readHeader (blob : Bytes) : Except Err Header := do
  let payload ← rlpResult (Rlp.listOnly blob)
  let fields ← rlpResult (readStrings payload.length payload)
  require (15 ≤ fields.length) (.outside "rlp: too few elements for types.Header")
  return { number := some (ofBE (fields.getD 8 [])), root := .ofBytes 32 (fields.getD 3 []) }

/-- The geth functions over a hash function. -/
def referenceGeth (keccak : Bytes → Hash) : Geth where
  keccak := keccak
  decodeHeader := readHeader
  stack := ⟨stackUpdate, fun l => trieHash keccak 64 [] (hexLeaves l)⟩
  partialStack p :=
    ⟨stackUpdate, fun l => trieHash keccak 63 [nibbleByte p] (under p (hexLeaves l))⟩
  mountPartitionRoot blob p := do
    let s ← Shape.decode blob
    return (keccak (s.prepend keccak p).encode, (s.prepend keccak p).encode, s.folds)
  assembleBranch children :=
    let s := Shape.branch fun i =>
      if children i.castSucc = [] then none else some (.ofBytes 32 (children i.castSucc))
    .ok (s.encode, keccak s.encode)

/-! ## The laws -/

theorem stackUpdate_eq_ok {h : History} {k v : Bytes} {nodes : List TrieNode} :
    stackUpdate h k v = .ok nodes ↔ v ≠ [] ∧ (∀ e ∈ h.getLast?, e.1 < k) ∧ nodes = [] := by
  unfold stackUpdate
  by_cases hv : v = []
  · simp [hv]
  · rw [if_neg hv]
    cases hLast : h.getLast? with
    | none => simp [hv, eq_comm]
    | some last =>
      by_cases hlt : last.1 < k
      · simp [hv, hlt, eq_comm]
      · simp [hlt]

theorem referenceGeth_ordered (keccak : Bytes → Hash) : (referenceGeth keccak).stack.Ordered :=
  fun h => (stackUpdate_eq_ok.mp h).2.1

theorem referenceGeth_accepts (keccak : Bytes → Hash) : (referenceGeth keccak).stack.Accepts :=
  fun _ _ hv hLast => ⟨[], stackUpdate_eq_ok.mpr ⟨hv, hLast, rfl⟩⟩

theorem referenceGeth_empty (keccak : Bytes → Hash) :
    ((referenceGeth keccak).stack.hash []).1 = emptyRootHash := rfl

/-! ## A sample state -/

/-- A hash function given by the values it takes: length and number of the
input, and number of the hash. -/
def tableKeccak (table : List (Nat × Nat × Nat)) (b : Bytes) : Hash :=
  match table.find? fun e => decide (e.1 = b.length ∧ e.2.1 = ofBE b) with
  | some e => hashOfNat e.2.2
  | none => zeroHash

/-- Keccak-256 on the inputs of the sample state: the empty string, the empty
trie, a code, the trie nodes, a header and the record chain. -/
def sampleTable : List (Nat × Nat × Nat) := [
  (0, 0x0,
    0xc5d2460186f7233c927e7db2dcc703c0e500b653ca82273b7bfad8045d85a470),
  (1, 0x80,
    0x56e81f171bcc55a6ff8345e692c0f86e5b48e01b996cadc001622fb5e363b421),
  (6, 0x600160005500,
    0x0dd9fc23b9e0972b48f0c93ebb805660239a90ba27a337a9f24333a8703975cd),
  (36, 0xe3a120290decd9548b62a8d60345a988386fc84ba6bc95484008f6362f93160ef3e5632a,
    0x81d1fa699f807735499cf6f7df860797cf66f6a66b565cfcda3fae3521eb6861),
  (107, 0xf869a03468288056310c82aa4c01a7e12a10f8111a0560e72b700555479031b86c357db846f8440180a081d1fa699f807735499cf6f7df860797cf66f6a66b565cfcda3fae3521eb6861a00dd9fc23b9e0972b48f0c93ebb805660239a90ba27a337a9f24333a8703975cd,
    0xdf271f08284da73dd509d20aed90640c6505c0504c550ec9d774d3dcdbaf84ec),
  (107, 0xf869a0321df1fa259221d02aa4956eb0d35ace318ca24c0a33a64c1af96cf67cf245b6b846f8440105a056e81f171bcc55a6ff8345e692c0f86e5b48e01b996cadc001622fb5e363b421a00dd9fc23b9e0972b48f0c93ebb805660239a90ba27a337a9f24333a8703975cd,
    0x0835d7d164553596f64e4c7fc7f1b30a9f94ece34013c5baf350e9eb8c53f417),
  (83, 0xf85180a0df271f08284da73dd509d20aed90640c6505c0504c550ec9d774d3dcdbaf84ec8080a00835d7d164553596f64e4c7fc7f1b30a9f94ece34013c5baf350e9eb8c53f417808080808080808080808080,
    0x5ef02e7f3236262b582d73d874c7544a9403324d24cf9d86fce15ec9228886da),
  (504, 0xf901f5a00000000000000000000000000000000000000000000000000000000000000000a01dcc4de8dec75d7aab85b567b6ccd41ad312451b948a7413f0a142fd40d49347940000000000000000000000000000000000000000a05ef02e7f3236262b582d73d874c7544a9403324d24cf9d86fce15ec9228886daa056e81f171bcc55a6ff8345e692c0f86e5b48e01b996cadc001622fb5e363b421a056e81f171bcc55a6ff8345e692c0f86e5b48e01b996cadc001622fb5e363b421b90100000000000000000000000000000000000000000000000000000000000000000000000000000000000000000000000000000000000000000000000000000000000000000000000000000000000000000000000000000000000000000000000000000000000000000000000000000000000000000000000000000000000000000000000000000000000000000000000000000000000000000000000000000000000000000000000000000000000000000000000000000000000000000000000000000000000000000000000000000000000000000000000000000000000000000000000000000000000000000000000000000000000000000000000000000000000207840100000080845f00000080a00000000000000000000000000000000000000000000000000000000000000000880000000000000000,
    0xe10527cf097b20a632cda2af5f2652fa4785654a231c2124c4eece69ccd93ec5),
  (133, 0x6d657469732d6c3273746174652d7265636f72642d636861696e2f76310000000000000007e10527cf097b20a632cda2af5f2652fa4785654a231c2124c4eece69ccd93ec55ef02e7f3236262b582d73d874c7544a9403324d24cf9d86fce15ec9228886dae10527cf097b20a632cda2af5f2652fa4785654a231c2124c4eece69ccd93ec5,
    0x4df2813cc0ec2ecb4758b807cf331023b15a3a4d6141f8af8295b17652d9cdf7),
  (143, 0x4df2813cc0ec2ecb4758b807cf331023b15a3a4d6141f8af8295b17652d9cdf7011468288056310c82aa4c01a7e12a10f8111a0560e72b700555479031b86c357d0000000000000046f8440180a081d1fa699f807735499cf6f7df860797cf66f6a66b565cfcda3fae3521eb6861a00dd9fc23b9e0972b48f0c93ebb805660239a90ba27a337a9f24333a8703975cd,
    0x515b8aa0f0cbb31db6fe18a5c0cd924cbb0b0ea5b46dcac10b1f0d38ede880b7),
  (106, 0x515b8aa0f0cbb31db6fe18a5c0cd924cbb0b0ea5b46dcac10b1f0d38ede880b7021468288056310c82aa4c01a7e12a10f8111a0560e72b700555479031b86c357d290decd9548b62a8d60345a988386fc84ba6bc95484008f6362f93160ef3e56300000000000000012a,
    0xbcbe60d5668a8bb30019c416b2bcd08a4ff9e9e444e39dc5505eb55bc40f232c),
  (79, 0xbcbe60d5668a8bb30019c416b2bcd08a4ff9e9e444e39dc5505eb55bc40f232c030dd9fc23b9e0972b48f0c93ebb805660239a90ba27a337a9f24333a8703975cd0000000000000006600160005500,
    0x3b7bc5f11ae9c3b8ebb72f7e4236b1900133165ed824bcd0fb501dbbf561b262),
  (110, 0x3b7bc5f11ae9c3b8ebb72f7e4236b1900133165ed824bcd0fb501dbbf561b26201421df1fa259221d02aa4956eb0d35ace318ca24c0a33a64c1af96cf67cf245b60000000000000025e4010580a00dd9fc23b9e0972b48f0c93ebb805660239a90ba27a337a9f24333a8703975cd,
    0x87a038c8dddb3a1a7be8bce00be846ebe6c7281a10bd5185a3c67909726ba431)]

def sampleKeccak : Bytes → Hash := tableKeccak sampleTable

/-- The reference trie over Keccak-256 on the sample state. -/
def sampleGeth : Geth := referenceGeth sampleKeccak

/-- Two contracts with the same code; the first has one storage slot. -/
def sampleCode : Bytes := toBE 6 0x600160005500
def sampleCodeHash : Hash :=
  hashOfNat 0x0dd9fc23b9e0972b48f0c93ebb805660239a90ba27a337a9f24333a8703975cd
def sampleHashA : Hash :=
  hashOfNat 0x1468288056310c82aa4c01a7e12a10f8111a0560e72b700555479031b86c357d
def sampleHashB : Hash :=
  hashOfNat 0x421df1fa259221d02aa4956eb0d35ace318ca24c0a33a64c1af96cf67cf245b6
def sampleSlot : Hash :=
  hashOfNat 0x290decd9548b62a8d60345a988386fc84ba6bc95484008f6362f93160ef3e563
def sampleStorageRoot : Hash :=
  hashOfNat 0x81d1fa699f807735499cf6f7df860797cf66f6a66b565cfcda3fae3521eb6861
def sampleStateRoot : Hash :=
  hashOfNat 0x5ef02e7f3236262b582d73d874c7544a9403324d24cf9d86fce15ec9228886da
def sampleAccountA : StateAccount := ⟨1, 0, sampleStorageRoot, sampleCodeHash.bytes⟩
def sampleAccountB : StateAccount := ⟨1, 5, emptyRootHash, sampleCodeHash.bytes⟩

/-- The strings of a header of block 7 with the given root. -/
def headerFields (root : Hash) : List Bytes := [
  zeroHash.bytes,
  (hashOfNat 0x1dcc4de8dec75d7aab85b567b6ccd41ad312451b948a7413f0a142fd40d49347).bytes,
  List.replicate 20 0, root.bytes, emptyRootHash.bytes, emptyRootHash.bytes,
  List.replicate 256 0, [2], [7], toBE 4 0x1000000, [], toBE 4 0x5f000000, [],
  zeroHash.bytes, List.replicate 8 0]

def headerOf (root : Hash) : Bytes :=
  Rlp.encodeList ((headerFields root).flatMap Rlp.encodeString)

theorem readHeader_headerOf (root : Hash) : readHeader (headerOf root) = .ok ⟨some 7, root⟩ := by
  have hLen : ((headerFields root).flatMap Rlp.encodeString).length < 2 ^ 64 := by
    have hSum : ((headerFields root).map fun b => b.length + 9).sum < 2 ^ 64 := by
      simp only [headerFields, List.map_cons, List.map_nil, FixedBytes.length_bytes,
        List.length_replicate, length_toBE, List.length_cons, List.length_nil, List.sum_cons,
        List.sum_nil]
      norm_num
    refine lt_of_le_of_lt ?_ hSum
    rw [List.length_flatMap]
    exact List.sum_le_sum fun b _ => Rlp.length_encodeString_le b
  have hList : Rlp.listOnly (headerOf root) = .ok ((headerFields root).flatMap Rlp.encodeString) :=
    Rlp.listOnly_eq_ok_iff.mpr ⟨rfl, hLen⟩
  have hRoot : (⟨some (ofBE ((headerFields root).getD 8 [])),
      .ofBytes 32 ((headerFields root).getD 3 [])⟩ : Header) = ⟨some 7, root⟩ := by
    change (⟨some 7, .ofBytes 32 root.bytes⟩ : Header) = _
    rw [FixedBytes.ofBytes_bytes]
  unfold readHeader
  rw [hList, rlpResult, ok_bind, readStrings_flatMap le_rfl hLen, rlpResult, ok_bind,
    require_true (show 15 ≤ (headerFields root).length from le_rfl), ok_bind, pure_eq_ok, hRoot]

/-- The header of the sample state. -/
def sampleHeader : Bytes := headerOf sampleStateRoot
def sampleBlockHash : Hash :=
  hashOfNat 0xe10527cf097b20a632cda2af5f2652fa4785654a231c2124c4eece69ccd93ec5

/-- The leaves of the two tries. -/
def sampleAccountLeaves : History :=
  [(sampleHashA.bytes, encodeStateAccount sampleAccountA),
    (sampleHashB.bytes, encodeStateAccount sampleAccountB)]
def sampleStorageLeaves : History := [(sampleSlot.bytes, [0x2a])]

/-- An opened trie over the given leaves. -/
def handleOf (l : History) (nodes : List Hash) : TrieHandle where
  iterator := .ok ⟨l, nodes, none⟩

/-- The databases that hold the sample state. -/
def sampleSource : Source where
  openTrie owner root :=
    if owner = zeroHash ∧ root = sampleStateRoot then
      .ok (handleOf sampleAccountLeaves
        ((sampleGeth.stack.hash sampleAccountLeaves).2.map (·.hash)))
    else if owner = sampleHashA ∧ root = sampleStorageRoot then
      .ok (handleOf sampleStorageLeaves [sampleStorageRoot])
    else .error (.outside "missing trie node")
  readCode hash := .ok (if hash = sampleCodeHash then sampleCode else [])

example : (sampleGeth.stack.hash sampleAccountLeaves).1 = sampleStateRoot := by decide +kernel

end L2State
