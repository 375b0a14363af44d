import ConfigTree.Proofs.Reachable
/-!
# Kept hashes are true

A tree keeps hashes at its nodes and updates them along the path of each edit only. They are always
those that a computation over the whole subtree gives (`Node.rehash`), and no node but the root is
without a value at or below it, so that a look at the root tells whether the tree is empty.
-/

namespace ConfigTree

namespace Node

variable {V : Type}

mutual
/-- The hash of a node from the values and labels of its whole subtree; no kept hash is read. -/
def rehash (scheme : Scheme V) : Node V → Except Error Hash
  | ⟨_, value, children, _⟩ => do
    let value ← match value with
      | none => .ok none
      | some v => (scheme.hashValue v.value).map some
    let children ← rehashChildren scheme children
    .ok (scheme.algorithm.digest (Content.mk value children).encode)
termination_by structural n => n

def rehashChildren (scheme : Scheme V) :
    List (String × Node V) → Except Error (List (String × Hash))
  | [] => .ok []
  | (label, child) :: rest => do
    let hash ← child.rehash scheme
    let rest ← rehashChildren scheme rest
    .ok ((label, hash) :: rest)
end

theorem rehashChildren_eq {scheme : Scheme V} {children : List (String × Node V)}
    (h : ∀ c ∈ children, c.2.rehash scheme = .ok c.2.hash) :
    rehashChildren scheme children = .ok (children.map fun (label, c) => (label, c.hash)) := by
  induction children with
  | nil => rfl
  | cons c rest ih =>
    rw [rehashChildren, h c List.mem_cons_self, ih fun e he => h e (List.mem_cons_of_mem _ he)]
    rfl

/-- In a sound subtree the kept hash is the one computed anew. -/
theorem Sound.rehash_eq {scheme : Scheme V} {n : Node V} (h : n.Sound scheme) (ho : n.Ordered) :
    n.rehash scheme = .ok n.hash := by
  induction n using Node.induction with
  | step n ih =>
    have hchildren := rehashChildren_eq fun c hc =>
      ih c hc (h.child (Table.get?_of_mem ho.ascending hc)) ((ordered_iff.mp ho).2 c hc)
    have hhash := h.here.hash_eq
    have hvalue := h.here.value_hash
    cases n with
    | mk stamp value children hash =>
      cases value with
      | none =>
        rw [rehash, hchildren]
        exact congrArg Except.ok hhash.symm
      | some v =>
        rw [rehash, hvalue v rfl, hchildren]
        exact congrArg Except.ok hhash.symm

/-- In a sound subtree the top node alone tells whether there is any value. -/
theorem Sound.isVacant_iff {scheme : Scheme V} {n : Node V} (h : n.Sound scheme) (ho : n.Ordered) :
    n.isVacant = true ↔ n.listing = [] := by
  constructor
  · intro hv
    rw [isVacant, Bool.and_eq_true, Option.isNone_iff_eq_none, List.isEmpty_iff] at hv
    rw [listing_eq, hv.1, hv.2]
    rfl
  · intro hl
    cases hv : n.isVacant with
    | true => rfl
    | false =>
      obtain ⟨path, v, hstored⟩ := h.bears_of_not_vacant hv
      rw [← mem_listing_iff ho, hl] at hstored
      cases hstored

end Node

namespace Tree

variable {V : Type}

/-- What every reachable tree satisfies at each of its nodes: the kept hash is the one computed
anew, a value hash is kept exactly with a value and is that of the value, and a node other than the
root has a value at or below it. So the tree is empty exactly if it lists nothing. -/
theorem Reachable.nodes_intact {t : Tree V} (ht : t.Reachable) :
    (∀ path n, t.find? path = some n →
      n.rehash t.scheme = .ok n.hash ∧
      (t.get? path = none ↔ n.valueHash? = none) ∧
      (∀ v, t.get? path = some v →
        ∃ hash, n.valueHash? = some hash ∧ t.scheme.hashValue v = .ok hash) ∧
      (path ≠ [] → ∃ below v, t.get? (path ++ below) = some v)) ∧
    (t.isEmpty = true ↔ t.entries = []) ∧
    (t.isEmpty = true ↔ t.size = 0) := by
  have hs : t.root.Sound t.scheme := ht.sound
  have hvacant := hs.isVacant_iff t.ordered
  refine ⟨fun path n hn => ?_, ?_, ?_⟩
  · have hget : t.get? path = n.value.map Stored.value := by rw [get?, hn]; rfl
    refine ⟨(Node.Sound.find? hs hn).rehash_eq (t.ordered.find? hn), ?_, ?_, ?_⟩
    · rw [hget, Node.valueHash?, Option.map_eq_none_iff, Option.map_eq_none_iff]
    · intro v hv
      rw [hget] at hv
      obtain ⟨stored, hstored, rfl⟩ := Option.map_eq_some_iff.mp hv
      refine ⟨stored.hash, ?_, (hs path n hn).value_hash stored hstored⟩
      rw [Node.valueHash?, hstored]
      rfl
    · intro hpath
      obtain ⟨below, v, hv⟩ := hs.bears_of_find? hn hpath
      refine ⟨below, v.value, ?_⟩
      rw [get?_eq, Node.stored?_append hn, hv]
      rfl
  · rw [entries, List.map_eq_nil_iff]
    exact hvacant
  · rw [size, List.length_eq_zero_iff]
    exact hvacant

/-- An encoding that keeps only the first byte: the second value has the hash of the first one,
which therefore stays. -/
theorem nodes_intact_of_lossy_encoding :
    let s : Scheme String := ⟨.blake3, fun v => .ok ((Bytes.ofString v).take 1)⟩
    let t := (empty s 0).replay 1
      [.insert ["a", "b"] "x1", .insert ["a", "b"] "x2", .insert ["c"] "", .erase ["c"]]
    t.Reachable ∧
    (∀ path n, t.find? path = some n → n.rehash t.scheme = .ok n.hash) ∧
    (∀ path n, t.find? path = some n → path ≠ [] → ∃ below v, t.get? (path ++ below) = some v) ∧
    t.isEmpty = false ∧ t.entries ≠ [] := by
  intro s t
  have ht : t.Reachable := .replay (.empty s 0) 1 _
  obtain ⟨hnodes, hempty, -⟩ := ht.nodes_intact
  have hfalse : t.isEmpty = false := by decide +kernel +zetaReduce
  refine ⟨ht, fun path n hn => (hnodes path n hn).1, fun path n hn => (hnodes path n hn).2.2.2,
    hfalse, fun he => ?_⟩
  rw [hempty.mpr he] at hfalse
  cases hfalse

end Tree

end ConfigTree
