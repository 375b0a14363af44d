import ConfigTree.Proofs.Tables
import ConfigTree.Tree.Basic
/-!
# Nodes seen through their paths

What a node stores is seen by looking up paths (`Node.stored?`). The listing of a node holds exactly
what is found that way, in ascending order of the paths, because the labels of the children ascend
at every node. A property of a node and of everything below it (`Node.Everywhere`) is the property
of the node together with the same for each child, so it is kept by an edit that keeps it at the
nodes it builds.
-/

namespace ConfigTree

namespace Path

variable {α : Type}

/-- The same entries with a label in front of their paths. -/
def prepend (label : String) (entries : List (Path × α)) : List (Path × α) :=
  entries.map fun (path, a) => (label :: path, a)

theorem mem_prepend {label : String} {entries : List (Path × α)} {e : Path × α} :
    e ∈ prepend label entries ↔ ∃ path, e.1 = label :: path ∧ (path, e.2) ∈ entries := by
  constructor
  · intro h
    obtain ⟨⟨path, a⟩, hmem, rfl⟩ := List.mem_map.mp h
    exact ⟨path, rfl, hmem⟩
  · rintro ⟨path, hpath, hmem⟩
    exact List.mem_map.mpr ⟨(path, e.2), hmem, Prod.ext hpath.symm rfl⟩

theorem cons_lt_cons {label : String} {p q : Path} : label :: p < label :: q ↔ p < q := by
  rw [List.cons_lt_cons_iff]
  constructor
  · rintro (h | ⟨-, h⟩)
    · exact absurd h (Std.lt_irrefl)
    · exact h
  · exact fun h => .inr ⟨rfl, h⟩

theorem ascending_prepend (label : String) {entries : List (Path × α)}
    (h : Table.Ascending entries) : Table.Ascending (prepend label entries) :=
  List.pairwise_map.mpr (h.imp fun hlt => cons_lt_cons.mpr hlt)

/-- Blocks of entries below ascending labels make up one ascending list. -/
theorem ascending_blocks {β : Type} {children : List (String × β)} {block : β → List (Path × α)}
    (h : Table.Ascending children) (hblock : ∀ c ∈ children, Table.Ascending (block c.2)) :
    Table.Ascending (children.flatMap fun (label, b) => prepend label (block b)) := by
  refine List.pairwise_flatMap.mpr ⟨fun c hc => ascending_prepend c.1 (hblock c hc), ?_⟩
  refine h.imp fun hlt x hx y hy => ?_
  obtain ⟨p, hp, -⟩ := mem_prepend.mp hx
  obtain ⟨q, hq, -⟩ := mem_prepend.mp hy
  rw [hp, hq]
  exact List.cons_lt_cons_iff.mpr (.inl hlt)

theorem mem_blocks {β : Type} {children : List (String × β)} {block : β → List (Path × α)}
    (h : Table.Ascending children) {label : String} {path : Path} {a : α} :
    (label :: path, a) ∈ children.flatMap (fun (label, b) => prepend label (block b)) ↔
      ∃ b, Table.get? label children = some b ∧ (path, a) ∈ block b := by
  constructor
  · intro hmem
    obtain ⟨⟨label', b⟩, hb, hmem⟩ := List.mem_flatMap.mp hmem
    obtain ⟨path', hpath, hmem⟩ := mem_prepend.mp hmem
    obtain ⟨rfl, rfl⟩ := List.cons.inj hpath
    exact ⟨b, Table.get?_of_mem h hb, hmem⟩
  · rintro ⟨b, hb, hmem⟩
    exact List.mem_flatMap.mpr
      ⟨(label, b), Table.mem_of_get? hb, mem_prepend.mpr ⟨path, rfl, hmem⟩⟩

/-- The entries of a node: its own one, and those of its children below their labels. -/
def assemble {β : Type} (own : Option α) (children : List (String × β))
    (block : β → List (Path × α)) : List (Path × α) :=
  (own.toList.map fun a => ([], a)) ++
    children.flatMap fun (label, b) => prepend label (block b)

section Assemble

variable {β : Type} {own : Option α} {children : List (String × β)} {block : β → List (Path × α)}

theorem cons_of_mem_blocks {e : Path × α}
    (h : e ∈ children.flatMap fun (label, b) => prepend label (block b)) :
    ∃ label path, e.1 = label :: path := by
  obtain ⟨c, -, hmem⟩ := List.mem_flatMap.mp h
  obtain ⟨path, hpath, -⟩ := mem_prepend.mp hmem
  exact ⟨c.1, path, hpath⟩

theorem mem_assemble_nil {a : α} : ([], a) ∈ assemble own children block ↔ own = some a := by
  rw [assemble, List.mem_append]
  constructor
  · rintro (h | h)
    · obtain ⟨a', ha, he⟩ := List.mem_map.mp h
      cases he
      exact Option.mem_toList.mp ha
    · obtain ⟨label, path, hpath⟩ := cons_of_mem_blocks h
      cases hpath
  · intro h
    exact .inl (List.mem_map.mpr ⟨a, Option.mem_toList.mpr h, rfl⟩)

theorem mem_assemble_cons (h : Table.Ascending children) {label : String} {path : Path} {a : α} :
    (label :: path, a) ∈ assemble own children block ↔
      ∃ b, Table.get? label children = some b ∧ (path, a) ∈ block b := by
  rw [assemble, List.mem_append, mem_blocks h]
  constructor
  · rintro (ha | hb)
    · obtain ⟨a', -, he⟩ := List.mem_map.mp ha
      cases he
    · exact hb
  · exact .inr

theorem ascending_assemble (h : Table.Ascending children)
    (hblock : ∀ c ∈ children, Table.Ascending (block c.2)) :
    Table.Ascending (assemble own children block) := by
  refine List.pairwise_append.mpr ⟨?_, ascending_blocks h hblock, ?_⟩
  · cases own with
    | none => exact .nil
    | some a => exact List.pairwise_singleton _ _
  · intro x hx y hy
    obtain ⟨a, -, rfl⟩ := List.mem_map.mp hx
    obtain ⟨label, path, hpath⟩ := cons_of_mem_blocks hy
    rw [hpath]
    exact List.nil_lt_cons label path

end Assemble

end Path

namespace Node

variable {V : Type}

/-- Induction over a node and all nodes below it. -/
@[elab_as_elim]
theorem induction {motive : Node V → Prop}
    (step : ∀ n : Node V, (∀ c ∈ n.children, motive c.2) → motive n) (n : Node V) : motive n :=
  @Node.rec V motive (fun children => ∀ c ∈ children, motive c.2) (fun c => motive c.2)
    (fun stamp value children hash ih => step ⟨stamp, value, children, hash⟩ ih)
    (fun _ h => nomatch h)
    (fun _ _ hd ih _ hc => (List.mem_cons.mp hc).elim (fun he => he ▸ hd) (ih _))
    (fun _ _ h => h) n

theorem child_mem {n c : Node V} {label : String} (h : n.child? label = some c) :
    (label, c) ∈ n.children := Table.mem_of_get? h

theorem find?_cons (n : Node V) (label : String) (path : Path) :
    n.find? (label :: path) = (n.child? label).bind (find? path) := rfl

theorem find?_child {n c : Node V} {label : String} (h : n.child? label = some c) :
    n.find? [label] = some c := by
  rw [find?_cons, h]
  rfl

theorem find?_append (n : Node V) (p q : Path) :
    n.find? (p ++ q) = (n.find? p).bind (find? q) := by
  induction p generalizing n with
  | nil => rfl
  | cons label rest ih =>
    rw [List.cons_append, find?_cons, find?_cons, Option.bind_assoc]
    exact congrArg _ (funext ih)

/-- The value stored at a path below the node, with its hash. -/
def stored? (n : Node V) (path : Path) : Option (Stored V) := (n.find? path).bind Node.value

theorem stored?_cons (n : Node V) (label : String) (path : Path) :
    n.stored? (label :: path) = (n.child? label).bind fun c => c.stored? path :=
  Option.bind_assoc ..

theorem stored?_append {n m : Node V} {p : Path} (h : n.find? p = some m) (q : Path) :
    n.stored? (p ++ q) = m.stored? q := by
  rw [stored?, find?_append, h]
  rfl

theorem stored?_build {algorithm : Algorithm} {stamp : Stamp} {value : Option (Stored V)}
    {children : List (String × Node V)} (path : Path) :
    (build algorithm stamp value children).stored? path =
      match path with
      | [] => value
      | label :: rest => (Table.get? label children).bind fun c => c.stored? rest := by
  cases path with
  | nil => rfl
  | cons label rest => exact stored?_cons _ label rest

theorem stored?_empty {algorithm : Algorithm} (stamp : Stamp) (path : Path) :
    (empty algorithm stamp : Node V).stored? path = none := by
  cases path <;> rfl

/-- The hash of the value at a path below the node. -/
def valueHashAt? (n : Node V) (path : Path) : Option Hash := (n.find? path).bind valueHash?

theorem valueHashAt?_eq (n : Node V) (path : Path) :
    n.valueHashAt? path = (n.stored? path).map Stored.hash := by
  rw [valueHashAt?, stored?]
  cases n.find? path <;> rfl

theorem valueHashAt?_cons (n : Node V) (label : String) (path : Path) :
    n.valueHashAt? (label :: path) = (n.child? label).bind fun c => c.valueHashAt? path :=
  Option.bind_assoc ..

/-- A value lies at the node or below it. -/
def Bears (n : Node V) : Prop := ∃ path v, n.stored? path = some v

theorem bears_of_value {n : Node V} {v : Stored V} (h : n.value = some v) : n.Bears := ⟨[], v, h⟩

theorem bears_of_child {n c : Node V} {label : String} (h : n.child? label = some c)
    (hc : c.Bears) : n.Bears := by
  obtain ⟨path, v, hv⟩ := hc
  refine ⟨label :: path, v, ?_⟩
  rw [stored?_cons, h]
  exact hv

/-- `P` holds of the node and of every node below it. -/
def Everywhere (P : Node V → Prop) (n : Node V) : Prop := ∀ path m, n.find? path = some m → P m

theorem everywhere_iff {P : Node V → Prop} {n : Node V} :
    n.Everywhere P ↔ P n ∧ ∀ label c, n.child? label = some c → c.Everywhere P := by
  constructor
  · intro h
    refine ⟨h [] n rfl, fun label c hc path m hm => h (label :: path) m ?_⟩
    rw [find?_cons, hc]
    exact hm
  · rintro ⟨hn, hchild⟩ path m hm
    cases path with
    | nil => cases hm; exact hn
    | cons label rest =>
      obtain ⟨c, hc, hm⟩ := Option.bind_eq_some_iff.mp hm
      exact hchild label c hc rest m hm

theorem Everywhere.here {P : Node V → Prop} {n : Node V} (h : n.Everywhere P) : P n :=
  h [] n rfl

theorem Everywhere.child {P : Node V → Prop} {n c : Node V} {label : String}
    (h : n.Everywhere P) (hc : n.child? label = some c) : c.Everywhere P :=
  (everywhere_iff.mp h).2 label c hc

theorem Everywhere.find? {P : Node V → Prop} {n m : Node V} {path : Path} (h : n.Everywhere P)
    (hm : n.find? path = some m) : m.Everywhere P := by
  intro below k hk
  refine h (path ++ below) k ?_
  rw [find?_append, hm]
  exact hk

/-- Where a missing child is taken for another node. -/
theorem Everywhere.childOr {P : Node V → Prop} {n other : Node V} {label : String}
    (h : n.Everywhere P) (hother : n.child? label = none → other.Everywhere P) :
    ((n.child? label).getD other).Everywhere P := by
  cases hc : n.child? label with
  | none => exact hother hc
  | some c => exact h.child hc

theorem childListing_eq (children : List (String × Node V)) :
    childListing children = children.flatMap fun (label, c) => Path.prepend label c.listing := by
  induction children with
  | nil => rfl
  | cons c rest ih => rw [childListing, ih, List.flatMap_cons]; rfl

theorem listing_eq (n : Node V) : n.listing = Path.assemble n.value n.children listing := by
  cases n
  rw [listing, childListing_eq]
  rfl

/-- The listing holds exactly what is stored at the paths. -/
theorem mem_listing_iff {n : Node V} (h : n.Ordered) {path : Path} {v : Stored V} :
    (path, v) ∈ n.listing ↔ n.stored? path = some v := by
  induction n using Node.induction generalizing path with
  | step n ih =>
    rw [listing_eq]
    cases path with
    | nil => exact Path.mem_assemble_nil
    | cons label rest =>
      rw [Path.mem_assemble_cons h.ascending, stored?_cons, Option.bind_eq_some_iff]
      constructor
      · rintro ⟨c, hc, hmem⟩
        exact ⟨c, hc, (ih _ (child_mem hc) (h.child hc)).mp hmem⟩
      · rintro ⟨c, hc, hv⟩
        exact ⟨c, hc, (ih _ (child_mem hc) (h.child hc)).mpr hv⟩

/-- The paths of the listing ascend. -/
theorem ascending_listing {n : Node V} (h : n.Ordered) : Table.Ascending n.listing := by
  induction n using Node.induction with
  | step n ih =>
    rw [listing_eq]
    exact Path.ascending_assemble h.ascending fun c hc => ih c hc ((ordered_iff.mp h).2 c hc)

end Node

namespace Tree

variable {V : Type}

/-- The hash of the value at a path, if there is a node and it has a value. -/
def valueHash? (t : Tree V) (path : Path) : Option Hash := (t.find? path).bind Node.valueHash?

theorem valueHash?_eq (t : Tree V) (path : Path) :
    t.valueHash? path = (t.root.stored? path).map Stored.hash :=
  Node.valueHashAt?_eq t.root path

theorem get?_eq (t : Tree V) (path : Path) :
    t.get? path = (t.root.stored? path).map Stored.value := by
  rw [get?, find?, Node.stored?]
  cases t.root.find? path <;> rfl

theorem valueHash?_eq_none_iff {t : Tree V} {path : Path} :
    t.valueHash? path = none ↔ t.get? path = none := by
  rw [valueHash?_eq, get?_eq, Option.map_eq_none_iff, Option.map_eq_none_iff]

end Tree

end ConfigTree
