import LiteMultiKV.Engine.Memory

/-!
# The hash engine

`kvs_hash.c` hashes a key to the remainder of the sum of its signed bytes and
keeps one singly linked chain per bucket.  A chain is modelled by the list of
its nodes from the head, each node being its key-value pair.  The remainder of
a negative sum is negative, and a negative bucket index is an access outside
the table, so every operation that hashes a key may have no defined result.
-/

namespace LiteMultiKV.Hash

open List CText Dictionary Memory

def maxTableSize : ℕ := 1024

/-- A `char` as the x86-64 ABI reads it. -/
def signedChar (byte : Byte) : ℤ :=
  if byte.toNat < 128 then byte.toNat else (byte.toNat : ℤ) - 256

/-- `_hash`: the C remainder, which takes the sign of the sum. -/
def hash (key : CStr) (size : ℕ) : ℤ :=
  ((key.bytes.map signedChar).sum).tmod size

/-- The bucket of a key, when the computed index lies in the table. -/
def bucket (key : CStr) : Option ℕ :=
  let index := hash key maxTableSize
  if 0 ≤ index then some index.toNat else none

/-- `kvs_hash_t`. -/
structure KvsHash where
  nodes : ℕ → Store
  maxSlots : ℕ
  count : ℕ

def kvsHashCreate : KvsHash where
  nodes := fun _ => []
  maxSlots := maxTableSize
  count := 0

/-- The test made at every node of a chain. -/
def holdsKey (key : CStr) (node : Σ _ : CStr, StrPtr) : Bool :=
  strcmp node.1 key = 0

/-- `_create_node` fails as soon as one of its three allocations does, and its
result is used unchecked. -/
def kvsHashSet (alloc : Alloc) (hash : KvsHash) :
    Option CStr → Option CStr → Option (KvsHash × ℤ)
  | some key, some value => do
      let index ← bucket key
      if (hash.nodes index).any (holdsKey key) then
        return (hash, 1)
      else if alloc 0 && alloc 1 && alloc 2 then
        return ({ hash with
          nodes := Function.update hash.nodes index
            (entry key (.text value) :: hash.nodes index)
          count := hash.count + 1 }, 0)
      else none
  | _, _ => some (hash, -1)

def kvsHashGet (hash : KvsHash) : Option CStr → Option StrPtr
  | none => some .null
  | some key => do
      let index ← bucket key
      match (hash.nodes index).find? (holdsKey key) with
      | none => return .null
      | some node => return node.2

/-- Write a new value into the first matching node of a chain. -/
def setValue (key : CStr) (value : StrPtr) : Store → Store
  | [] => []
  | node :: chain =>
      if holdsKey key node then entry node.1 value :: chain
      else node :: setValue key value chain

/-- The value is not checked for null before its length is taken.  The old
value is freed before the new one is allocated, so a failed allocation leaves
the node pointing at freed memory. -/
def kvsHashMod (alloc : Alloc) (hash : KvsHash) :
    Option CStr → Option CStr → Option (KvsHash × ℤ)
  | none, _ => some (hash, -1)
  | some key, value => do
      let index ← bucket key
      if (hash.nodes index).any (holdsKey key) then
        let value ← value
        let value := if alloc 0 then StrPtr.text value else .freed
        return ({ hash with
          nodes := Function.update hash.nodes index
            (setValue key value (hash.nodes index)) },
          if alloc 0 then 0 else -2)
      else return (hash, 1)

/-- The middle and rear case of `kvs_hash_del`: walk with `cur` until its
successor matches, and unlink the successor. -/
def unlinkAfter (key : CStr) (cur : Σ _ : CStr, StrPtr) : Store → Option Store
  | [] => none
  | next :: chain =>
      if holdsKey key next then some (cur :: chain)
      else (unlinkAfter key next chain).map (cur :: ·)

def kvsHashDel (hash : KvsHash) : Option CStr → Option (KvsHash × ℤ)
  | none => some (hash, -2)
  | some key => do
      let index ← bucket key
      match hash.nodes index with
      | [] => return (hash, 1)
      | head :: chain =>
          if holdsKey key head then
            return ({ hash with
              nodes := Function.update hash.nodes index chain
              count := hash.count - 1 }, 0)
          else
            match unlinkAfter key head chain with
            | none => return (hash, 1)
            | some chain =>
                return ({ hash with
                  nodes := Function.update hash.nodes index chain
                  count := hash.count - 1 }, 0)

def kvsHashExist (hash : KvsHash) (key : Option CStr) : Option ℤ := do
  let value ← kvsHashGet hash key
  return if value = .null then 1 else 0

/-! ## Buckets -/

/-- A key all of whose bytes are below 128. -/
def Ascii (key : CStr) : Prop :=
  ∀ byte ∈ key.bytes, byte.toNat < 128

theorem bucket_lt {key : CStr} {index : ℕ} (hbucket : bucket key = some index) :
    index < maxTableSize := by
  have hlt : hash key maxTableSize < maxTableSize :=
    Int.tmod_lt_of_pos _ (by norm_num [maxTableSize])
  by_cases hsign : 0 ≤ hash key maxTableSize
  · simp only [bucket, hsign, if_true, Option.some.injEq] at hbucket
    omega
  · simp [bucket, hsign] at hbucket

/-- A 7-bit key has a non-negative byte sum, hence a bucket. -/
theorem exists_bucket_of_ascii {key : CStr} (hascii : Ascii key) :
    ∃ index, bucket key = some index := by
  have hsum : 0 ≤ (key.bytes.map signedChar).sum := by
    apply sum_nonneg
    intro code hcode
    obtain ⟨byte, hbyte, rfl⟩ := mem_map.1 hcode
    simp [signedChar, hascii byte hbyte]
  have hsign : 0 ≤ hash key maxTableSize := Int.tmod_nonneg _ hsum
  exact ⟨_, by simp [bucket, hsign]; rfl⟩

theorem holdsKey_iff {key : CStr} {node : Σ _ : CStr, StrPtr} :
    holdsKey key node = true ↔ node.1 = key := by
  simp [holdsKey, strcmp_eq_zero_iff]

/-- The nodes of all chains, bucket by bucket from the head. -/
def entries (hash : KvsHash) : Store :=
  tableEntries hash.maxSlots hash.nodes

/-- Every node sits in the bucket of its key, no key occurs twice, and `count`
is the number of nodes. -/
structure Valid (hash : KvsHash) : Prop where
  slots_eq : hash.maxSlots = maxTableSize
  placed : ∀ index, ∀ node ∈ hash.nodes index, bucket node.1 = some index
  nodup : (entries hash).NodupKeys
  count_eq : hash.count = (entries hash).length

theorem create_entries : entries kvsHashCreate = [] := by
  simp [entries, tableEntries, kvsHashCreate]

theorem create_valid : Valid kvsHashCreate where
  slots_eq := rfl
  placed := fun _ _ hnode => absurd hnode not_mem_nil
  nodup := by
    rw [create_entries]
    exact nodupKeys_nil
  count_eq := by
    rw [create_entries]
    rfl

/-- A key is looked up in its own chain only. -/
theorem denote_entries {hash : KvsHash} (hvalid : Valid hash) {key : CStr}
    {index : ℕ} (hbucket : bucket key = some index) :
    denote (entries hash) key = denote (hash.nodes index) key := by
  apply denote_tableEntries
  · rw [hvalid.slots_eq]
    exact bucket_lt hbucket
  · intro other hother hkey
    obtain ⟨value, hnode⟩ := exists_of_mem_keys hkey
    have hplaced := hvalid.placed other _ hnode
    rw [hbucket, Option.some.injEq] at hplaced
    exact hother hplaced.symm

theorem denote_chain (key : CStr) (chain : Store) :
    denote chain key = (chain.find? (holdsKey key)).map fun node => node.2 := by
  induction chain with
  | nil => rfl
  | cons node chain ih =>
      obtain ⟨stored, value⟩ := node
      by_cases hkey : stored = key
      · subst hkey
        have hmatch : holdsKey stored ⟨stored, value⟩ = true := holdsKey_iff.2 rfl
        rw [find?_cons_of_pos hmatch]
        simp [denote]
      · have hmatch : ¬holdsKey key ⟨stored, value⟩ = true := fun h =>
          hkey (holdsKey_iff.1 h)
        rw [find?_cons_of_neg hmatch, ← ih]
        exact dlookup_cons_ne chain ⟨stored, value⟩ (Ne.symm hkey)

theorem any_holdsKey_iff (key : CStr) (chain : Store) :
    chain.any (holdsKey key) = true ↔ denote chain key ≠ none := by
  rw [Ne, denote_eq_none_iff, not_not, any_eq_true]
  constructor
  · rintro ⟨node, hnode, hmatch⟩
    rw [← holdsKey_iff.1 hmatch]
    exact mem_keys_of_mem hnode
  · intro hkey
    obtain ⟨value, hnode⟩ := exists_of_mem_keys hkey
    exact ⟨_, hnode, holdsKey_iff.2 rfl⟩

/-- Replacing one chain by a spliced one keeps the table valid. -/
theorem valid_update {hash : KvsHash} (hvalid : Valid hash) {index : ℕ} (count : ℕ)
    (hindex : index < maxTableSize) {old new chain : Store}
    (hchain : Splice old new (hash.nodes index) chain)
    (hplaced : ∀ node ∈ new, bucket node.1 = some index)
    (hcount : count + old.length = hash.count + new.length)
    (hnodup : ∀ after, Splice old new (entries hash) after → after.NodupKeys) :
    Splice old new (entries hash)
        (entries { hash with
          nodes := Function.update hash.nodes index chain, count := count }) ∧
      Valid { hash with
        nodes := Function.update hash.nodes index chain, count := count } := by
  have hsize : index < hash.maxSlots := by
    rw [hvalid.slots_eq]
    exact hindex
  have hsplice : Splice old new (entries hash)
      (entries { hash with
        nodes := Function.update hash.nodes index chain, count := count }) := by
    obtain ⟨left, right, hbefore, hafter⟩ := splice_update hsize hash.nodes chain
    have hframe := hchain.frame left right
    rw [← hbefore, ← hafter] at hframe
    exact hframe
  refine ⟨hsplice, ?_⟩
  exact
    { slots_eq := hvalid.slots_eq
      placed := by
        intro other node hnode
        by_cases hother : other = index
        · subst hother
          simp only [Function.update_self] at hnode
          rcases hchain.mem_after hnode with hold | hadded
          · exact hvalid.placed other node hold
          · exact hplaced node hadded
        · simp only [Function.update_of_ne hother] at hnode
          exact hvalid.placed other node hnode
      nodup := hnodup _ hsplice
      count_eq := by
        have hlength := hsplice.length_eq
        have hbefore := hvalid.count_eq
        change count = _
        omega }

/-! ## The operations on a valid table -/

theorem get_eq {hash : KvsHash} (hvalid : Valid hash) {key : CStr} {index : ℕ}
    (hbucket : bucket key = some index) :
    kvsHashGet hash (some key) = some (toPtr (denote (entries hash) key)) := by
  rw [denote_entries hvalid hbucket, denote_chain]
  simp only [kvsHashGet, hbucket, Option.bind_eq_bind, Option.bind_some]
  cases (hash.nodes index).find? (holdsKey key) <;> rfl

theorem set_present {hash : KvsHash} (hvalid : Valid hash) {key : CStr} {index : ℕ}
    (hbucket : bucket key = some index) (hpresent : denote (entries hash) key ≠ none)
    (alloc : Alloc) (value : CStr) :
    kvsHashSet alloc hash (some key) (some value) = some (hash, 1) := by
  rw [denote_entries hvalid hbucket] at hpresent
  have hany := (any_holdsKey_iff key (hash.nodes index)).2 hpresent
  simp [kvsHashSet, hbucket, hany]

/-- A denied allocation is followed. -/
theorem set_denied {hash : KvsHash} (hvalid : Valid hash) {key : CStr} {index : ℕ}
    (hbucket : bucket key = some index) (habsent : denote (entries hash) key = none)
    {alloc : Alloc} (hdenied : (alloc 0 && alloc 1 && alloc 2) = false) (value : CStr) :
    kvsHashSet alloc hash (some key) (some value) = none := by
  rw [denote_entries hvalid hbucket] at habsent
  have hany : (hash.nodes index).any (holdsKey key) = false := by
    rw [← Bool.not_eq_true, any_holdsKey_iff]
    simp [habsent]
  simp only [kvsHashSet, hbucket, Option.bind_eq_bind, Option.bind_some, hany, hdenied]
  simp

theorem set_absent {hash : KvsHash} (hvalid : Valid hash) {key : CStr} {index : ℕ}
    (hbucket : bucket key = some index) (habsent : denote (entries hash) key = none)
    (value : CStr) :
    ∃ after, kvsHashSet allocOk hash (some key) (some value) = some (after, 0) ∧
      Valid after ∧
      Splice [] [entry key (.text value)] (entries hash) (entries after) := by
  have hchain := habsent
  rw [denote_entries hvalid hbucket] at hchain
  have hany : (hash.nodes index).any (holdsKey key) = false := by
    rw [← Bool.not_eq_true, any_holdsKey_iff]
    simp [hchain]
  have hpush : Splice [] [entry key (.text value)] (hash.nodes index)
      (entry key (.text value) :: hash.nodes index) := ⟨[], _, rfl, rfl⟩
  have hupdate := valid_update hvalid (hash.count + 1)
    (bucket_lt hbucket) hpush (by simpa using hbucket) rfl
    (fun after hafter => hafter.nodupKeys_insert hvalid.nodup habsent)
  exact ⟨_, by simp [kvsHashSet, hbucket, hany], hupdate.2, hupdate.1⟩

/-- An insertion that returns keeps the invariant, whatever allocations fail. -/
theorem set_valid {hash after : KvsHash} (hvalid : Valid hash) {key value : CStr} {index : ℕ}
    (hbucket : bucket key = some index) {alloc : Alloc} {code : ℤ}
    (hset : kvsHashSet alloc hash (some key) (some value) = some (after, code)) :
    Valid after := by
  by_cases hpresent : denote (entries hash) key = none
  · cases halloc : alloc 0 && alloc 1 && alloc 2 with
    | false =>
        rw [set_denied hvalid hbucket hpresent halloc] at hset
        cases hset
    | true =>
        obtain ⟨inst, hinsert, hinst, -⟩ := set_absent hvalid hbucket hpresent value
        have hsame : kvsHashSet alloc hash (some key) (some value) =
            kvsHashSet allocOk hash (some key) (some value) := by
          simp [kvsHashSet, halloc]
        rw [hsame, hinsert, Option.some.injEq, Prod.mk.injEq] at hset
        exact hset.1 ▸ hinst
  · rw [set_present hvalid hbucket hpresent, Option.some.injEq, Prod.mk.injEq] at hset
    exact hset.1 ▸ hvalid

/-- A key of a chain is in its first node, or behind it. -/
theorem denote_cons_cases {key : CStr} {old : StrPtr} {node : Σ _ : CStr, StrPtr} {chain : Store}
    (hpresent : denote (node :: chain) key = some old) :
    (node = entry key old ∧ holdsKey key node = true) ∨
      (¬holdsKey key node = true ∧ denote chain key = some old) := by
  obtain ⟨stored, value⟩ := node
  rw [holdsKey_iff]
  by_cases hkey : stored = key
  · subst hkey
    have hvalue : value = old := by simpa [denote] using hpresent
    exact .inl ⟨by rw [hvalue], rfl⟩
  · refine .inr ⟨hkey, ?_⟩
    rw [← hpresent]
    exact (dlookup_cons_ne chain ⟨stored, value⟩ (Ne.symm hkey)).symm

/-- Overwriting the first match of a chain. -/
theorem setValue_splice {key : CStr} {old : StrPtr} (value : StrPtr) {chain : Store}
    (hpresent : denote chain key = some old) :
    Splice [entry key old] [entry key value] chain (setValue key value chain) := by
  induction chain with
  | nil => simp [denote] at hpresent
  | cons node chain ih =>
      rcases denote_cons_cases hpresent with ⟨rfl, hholds⟩ | ⟨hholds, htail⟩
      · exact ⟨[], chain, rfl, by simp [setValue, hholds]⟩
      · obtain ⟨front, back, hbefore, hafter⟩ := ih htail
        refine ⟨node :: front, back, by simp [hbefore], ?_⟩
        simp [setValue, hholds, hafter]

theorem mod_absent {hash : KvsHash} (hvalid : Valid hash) {key : CStr} {index : ℕ}
    (hbucket : bucket key = some index) (habsent : denote (entries hash) key = none)
    (alloc : Alloc) (value : Option CStr) :
    kvsHashMod alloc hash (some key) value = some (hash, 1) := by
  rw [denote_entries hvalid hbucket] at habsent
  have hany : (hash.nodes index).any (holdsKey key) = false := by
    rw [← Bool.not_eq_true, any_holdsKey_iff]
    simp [habsent]
  simp [kvsHashMod, hbucket, hany]

/-- Replacing the value of a present key rewrites the first match of its chain. -/
theorem mod_held {hash : KvsHash} (hvalid : Valid hash) {key : CStr} {index : ℕ}
    (hbucket : bucket key = some index) {old : StrPtr}
    (hpresent : denote (entries hash) key = some old) (alloc : Alloc) (value : CStr) :
    ∃ after, kvsHashMod alloc hash (some key) (some value) =
        some (after, if alloc 0 then 0 else -2) ∧ Valid after ∧
      Splice [entry key old] [entry key (if alloc 0 then .text value else .freed)]
        (entries hash) (entries after) := by
  rw [denote_entries hvalid hbucket] at hpresent
  have hany : (hash.nodes index).any (holdsKey key) = true := by
    rw [any_holdsKey_iff]
    simp [hpresent]
  have hupdate := valid_update hvalid hash.count (bucket_lt hbucket)
    (setValue_splice (if alloc 0 then .text value else .freed) hpresent)
    (by simpa using hbucket) rfl
    (fun after hafter => hafter.nodupKeys_replace hvalid.nodup)
  exact ⟨_, by simp [kvsHashMod, hbucket, hany], hupdate.2, hupdate.1⟩

/-- Without a value, a present key has its missing value read. -/
theorem mod_missing {hash : KvsHash} (hvalid : Valid hash) {key : CStr} {index : ℕ}
    (hbucket : bucket key = some index) (hpresent : denote (entries hash) key ≠ none)
    (alloc : Alloc) : kvsHashMod alloc hash (some key) none = none := by
  rw [denote_entries hvalid hbucket] at hpresent
  have hany := (any_holdsKey_iff key (hash.nodes index)).2 hpresent
  simp [kvsHashMod, hbucket, hany]

theorem unlinkAfter_none {key : CStr} {chain : Store} (cur : Σ _ : CStr, StrPtr)
    (habsent : denote chain key = none) : unlinkAfter key cur chain = none := by
  induction chain generalizing cur with
  | nil => rfl
  | cons next chain ih =>
      rw [denote_eq_none_iff, keys_cons, mem_cons, not_or] at habsent
      have hholds : ¬holdsKey key next = true := fun h =>
        habsent.1 (holdsKey_iff.1 h).symm
      simp [unlinkAfter, hholds, ih next (denote_eq_none_iff.2 habsent.2)]

theorem unlinkAfter_splice {key : CStr} {old : StrPtr} {chain : Store}
    (cur : Σ _ : CStr, StrPtr) (hpresent : denote chain key = some old) :
    ∃ after, unlinkAfter key cur chain = some after ∧
      Splice [entry key old] [] (cur :: chain) after := by
  induction chain generalizing cur with
  | nil => simp [denote] at hpresent
  | cons next chain ih =>
      rcases denote_cons_cases hpresent with ⟨rfl, hholds⟩ | ⟨hholds, htail⟩
      · exact ⟨cur :: chain, by simp [unlinkAfter, hholds], [cur], chain, rfl, rfl⟩
      · obtain ⟨after, hunlink, hsplice⟩ := ih next htail
        refine ⟨cur :: after, by simp [unlinkAfter, hholds, hunlink], ?_⟩
        simpa using hsplice.frame [cur] []

theorem del_absent {hash : KvsHash} (hvalid : Valid hash) {key : CStr} {index : ℕ}
    (hbucket : bucket key = some index) (habsent : denote (entries hash) key = none) :
    kvsHashDel hash (some key) = some (hash, 1) := by
  rw [denote_entries hvalid hbucket] at habsent
  cases hnodes : hash.nodes index with
  | nil => simp [kvsHashDel, hbucket, hnodes]
  | cons head chain =>
      rw [hnodes, denote_eq_none_iff, keys_cons, mem_cons, not_or] at habsent
      have hholds : ¬holdsKey key head = true := fun h =>
        habsent.1 (holdsKey_iff.1 h).symm
      have hunlink := unlinkAfter_none head (denote_eq_none_iff.2 habsent.2)
      simp [kvsHashDel, hbucket, hnodes, hholds, hunlink]

theorem del_present {hash : KvsHash} (hvalid : Valid hash) {key : CStr} {index : ℕ}
    (hbucket : bucket key = some index) {old : StrPtr}
    (hpresent : denote (entries hash) key = some old) :
    ∃ after, kvsHashDel hash (some key) = some (after, 0) ∧ Valid after ∧
      Splice [entry key old] [] (entries hash) (entries after) := by
  have hcount : 0 < hash.count := by
    rw [hvalid.count_eq, length_pos_iff_exists_mem]
    exact ⟨_, (denote_eq_some_iff hvalid.nodup).1 hpresent⟩
  rw [denote_entries hvalid hbucket] at hpresent
  have hupdate : ∀ chain, Splice [entry key old] [] (hash.nodes index) chain →
      _ ∧ _ := fun chain hchain =>
    valid_update hvalid (hash.count - 1) (bucket_lt hbucket) hchain
      (by simp) (by simp only [length_singleton, length_nil]; omega)
      (fun after hafter => hafter.nodupKeys_remove hvalid.nodup)
  cases hnodes : hash.nodes index with
  | nil => simp [hnodes, denote] at hpresent
  | cons head chain =>
      rw [hnodes] at hupdate hpresent
      rcases denote_cons_cases hpresent with ⟨rfl, hholds⟩ | ⟨hholds, htail⟩
      · obtain ⟨hsplice, hafter⟩ := hupdate chain ⟨[], chain, rfl, rfl⟩
        exact ⟨_, by simp [kvsHashDel, hbucket, hnodes, hholds], hafter, hsplice⟩
      · obtain ⟨after, hunlink, hchain⟩ := unlinkAfter_splice head htail
        obtain ⟨hsplice, hafter⟩ := hupdate after hchain
        exact ⟨_, by simp [kvsHashDel, hbucket, hnodes, hholds, hunlink], hafter,
          hsplice⟩

/-! ## The range of the index -/

/-- Addition of two `int` values, which has no defined result when it overflows. -/
def addInt (left right : ℤ) : Option ℤ :=
  if -2 ^ 31 ≤ left + right ∧ left + right < 2 ^ 31 then some (left + right) else none

/-- The loop of `_hash` in the arithmetic of the machine. -/
def sumLoop : List Byte → ℤ → Option ℤ
  | [], sum => some sum
  | byte :: bytes, sum => (addInt sum (signedChar byte)).bind (sumLoop bytes)

/-- The number of bytes that a signed `char` reads as negative. -/
def highBytes (bytes : List Byte) : ℕ :=
  bytes.countP fun byte => 128 ≤ byte.toNat

/-- The sum of the bytes read without a sign. -/
def byteTotal (bytes : List Byte) : ℕ :=
  (bytes.map UInt8.toNat).sum

/-- The high bytes do not outweigh the others, or by a multiple of the table size. -/
def Placeable (key : CStr) : Prop :=
  256 * highBytes key.bytes ≤ byteTotal key.bytes ∨
    byteTotal key.bytes ≡ 256 * highBytes key.bytes [MOD maxTableSize]

instance (key : CStr) : Decidable (Placeable key) := by
  unfold Placeable
  infer_instance

theorem signedChar_bounds (byte : Byte) : -128 ≤ signedChar byte ∧ signedChar byte ≤ 127 := by
  have hbyte := byte.toNat_lt
  unfold signedChar
  split <;> omega

/-- A sum that starts far enough from the limits stays inside them. -/
theorem sumLoop_eq {bytes : List Byte} {sum : ℤ} (hlow : -2 ^ 31 ≤ sum - 128 * bytes.length)
    (hhigh : sum + 127 * bytes.length < 2 ^ 31) :
    sumLoop bytes sum = some (sum + (bytes.map signedChar).sum) := by
  induction bytes generalizing sum with
  | nil => simp [sumLoop]
  | cons byte bytes ih =>
      obtain ⟨hleast, hmost⟩ := signedChar_bounds byte
      push_cast [length_cons] at hlow hhigh
      have hadd : addInt sum (signedChar byte) = some (sum + signedChar byte) :=
        if_pos ⟨by omega, by omega⟩
      rw [sumLoop, hadd, Option.bind_some, ih (by omega) (by omega), map_cons, sum_cons,
        add_assoc]

theorem sum_signedChar (bytes : List Byte) :
    (bytes.map signedChar).sum = (byteTotal bytes : ℤ) - 256 * highBytes bytes := by
  induction bytes with
  | nil => rfl
  | cons byte bytes ih =>
      rw [map_cons, sum_cons, ih, byteTotal, byteTotal, highBytes, highBytes, map_cons, sum_cons,
        countP_cons, signedChar]
      by_cases hbyte : byte.toNat < 128
      · simp [hbyte, Nat.not_le.2 hbyte]
        omega
      · simp [hbyte, Nat.not_lt.1 hbyte]
        omega

/-- A remainder with the sign of the dividend is negative exactly for negative dividends
that are no multiples. -/
theorem tmod_nonneg_iff (sum : ℤ) (size : ℕ) :
    0 ≤ sum.tmod size ↔ 0 ≤ sum ∨ (size : ℤ) ∣ sum := by
  constructor
  · intro hnonneg
    by_contra! hnot
    obtain ⟨hneg, hdvd⟩ := hnot
    have hnonpos : sum.tmod size ≤ 0 := by
      have hopposite := Int.tmod_nonneg (size : ℤ) (show 0 ≤ -sum by omega)
      rw [Int.neg_tmod] at hopposite
      omega
    exact hdvd (Int.dvd_of_tmod_eq_zero (le_antisymm hnonpos hnonneg))
  · rintro (hnonneg | hdvd)
    · exact Int.tmod_nonneg _ hnonneg
    · exact (Int.tmod_eq_zero_of_dvd hdvd).ge

theorem hash_nonneg_iff (key : CStr) : 0 ≤ hash key maxTableSize ↔ Placeable key := by
  rw [hash, tmod_nonneg_iff, sum_signedChar, Placeable, Nat.modEq_iff_dvd]
  refine or_congr (by omega) ?_
  rw [← dvd_neg, neg_sub]
  push_cast
  rfl

theorem bucket_isSome_iff (key : CStr) : (bucket key).isSome ↔ Placeable key := by
  rw [← hash_nonneg_iff, bucket]
  split
  next hsign => simp [hsign]
  next hsign => simp [hsign]

/-- The operations on a key are defined exactly when its index lies in the table. -/
theorem operations_isSome_iff (hash : KvsHash) (key value : CStr) :
    ((kvsHashSet allocOk hash (some key) (some value)).isSome ↔ Placeable key) ∧
      ((kvsHashGet hash (some key)).isSome ↔ Placeable key) ∧
      ((kvsHashMod allocOk hash (some key) (some value)).isSome ↔ Placeable key) ∧
      ((kvsHashDel hash (some key)).isSome ↔ Placeable key) := by
  rw [← bucket_isSome_iff]
  cases hbucket : bucket key with
  | none => simp [kvsHashSet, kvsHashGet, kvsHashMod, kvsHashDel, hbucket]
  | some index =>
      refine ⟨?_, ?_, ?_, ?_⟩
      · simp only [kvsHashSet, hbucket]
        by_cases hany : (hash.nodes index).any (holdsKey key) <;> simp [hany]
      · simp only [kvsHashGet, hbucket]
        cases hfind : (hash.nodes index).find? (holdsKey key) <;> simp [hfind]
      · simp only [kvsHashMod, hbucket]
        by_cases hany : (hash.nodes index).any (holdsKey key) <;> simp [hany]
      · simp only [kvsHashDel, hbucket]
        cases hnodes : hash.nodes index with
        | nil => simp [hnodes]
        | cons head chain =>
            by_cases hholds : holdsKey key head
            · simp [hnodes, hholds]
            · cases hunlink : unlinkAfter key head chain <;> simp [hnodes, hholds, hunlink]

/-- The sum of a key of at most 1 MiB does not overflow, and its index lies in the table
exactly when the key is placeable. -/
theorem index_in_table_iff (key : CStr) (hlength : strlen key ≤ 2 ^ 20) :
    (sumLoop key.bytes 0).map (Int.tmod · maxTableSize) = some (hash key maxTableSize) ∧
      (0 ≤ hash key maxTableSize ∧ hash key maxTableSize < maxTableSize ↔ Placeable key) ∧
      ∀ table value,
        ((kvsHashSet allocOk table (some key) (some value)).isSome ↔ Placeable key) ∧
        ((kvsHashGet table (some key)).isSome ↔ Placeable key) ∧
        ((kvsHashMod allocOk table (some key) (some value)).isSome ↔ Placeable key) ∧
        ((kvsHashDel table (some key)).isSome ↔ Placeable key) := by
  have hbytes : key.bytes.length ≤ 2 ^ 20 := hlength
  refine ⟨?_, ?_, fun table value => operations_isSome_iff table key value⟩
  · rw [sumLoop_eq (by omega) (by omega), Option.map_some, zero_add, hash]
  · rw [hash_nonneg_iff]
    exact and_iff_left (Int.tmod_lt_of_pos _ (by decide))

theorem index_in_table_iff_word :
    0 ≤ hash (lit "word") maxTableSize ∧ hash (lit "word") maxTableSize < maxTableSize :=
  (index_in_table_iff (lit "word") (by decide)).2.1.2 (by decide)

/-- The UTF-8 key `é`. -/
def accented : CStr :=
  CStr.read [0xC3, 0xA9]

/-- Its index lies in front of the table. -/
theorem accented_key_outside_table :
    hash accented maxTableSize = -148 ∧
      (kvsHashSet allocOk kvsHashCreate (some accented) (some (lit "1"))).isNone ∧
      (kvsHashGet kvsHashCreate (some accented)).isNone := by
  decide

end LiteMultiKV.Hash
