import ConfigTree.Proofs.Bookkeeping
import Mathlib.Data.List.TakeWhile
/-!
# Changes that one listener hears

What a listener is to hear is told by the snapshots applied while it is registered: one delivery for
each snapshot whose subtree at its path has another hash than the one before (`changes`). `Settled`
says of a journal that every listener has heard that and nothing else, once the deliveries that are
still owed are made. It is kept by every entry: a snapshot adds to what is owed, a delivery takes
from it, and a new registration starts with nothing.
-/

namespace ConfigTree

variable {V C S N : Type}

/-- What the last of a list says, or `b` if there is none. -/
def latest {α β : Type} (f : α → β) (b : β) (l : List α) : β := (l.getLast?.map f).getD b

theorem latest_none {α β : Type} (f : α → Option β) (l : List α) :
    latest f none l = l.getLast?.bind f := by
  rw [latest]
  cases l.getLast? <;> rfl

theorem latest_append {α β : Type} (f : α → β) (b : β) (l l' : List α) :
    latest f b (l ++ l') = latest f (latest f b l) l' := by
  rw [latest, latest, latest, List.getLast?_append]
  cases l'.getLast? <;> rfl

theorem latest_cons {α β : Type} (f : α → β) (b : β) (a : α) (l : List α) :
    latest f b (a :: l) = latest f (f a) l := latest_append f b [a] l

/-- What is delivered at `path` for a snapshot, after a subtree with the given hash. -/
def change (path : Path) (seen : Option Hash) (tree : Tree V) : List (Delivery V) :=
  if tree.hash? path = seen then [] else [Delivery.ofSubtree? (tree.subtree? path)]

/-- What is delivered at `path` for one snapshot after another: the new state of the subtree for
each of them in which its hash differs from the hash seen before. -/
def changes (path : Path) : Option Hash → List (Tree V) → List (Delivery V)
  | _, [] => []
  | seen, tree :: rest => change path seen tree ++ changes path (tree.hash? path) rest

theorem changes_append (path : Path) (seen : Option Hash) (l l' : List (Tree V)) :
    changes path seen (l ++ l') =
      changes path seen l ++ changes path (latest (Tree.hash? · path) seen l) l' := by
  induction l generalizing seen with
  | nil => rfl
  | cons tree rest ih =>
    rw [List.cons_append, changes, changes, ih, List.append_assoc, latest_cons]

theorem hash?_ofSubtree? (tree : Tree V) (path : Path) :
    (Delivery.ofSubtree? (tree.subtree? path)).hash? = tree.hash? path := by
  cases h : tree.subtree? path with
  | none =>
    rw [Tree.hash?, Tree.subtree?_eq_none.mp h]
    rfl
  | some u =>
    rw [Tree.hash?, (Tree.subtree?_eq_some.mp h).1]
    rfl

/-- Whoever heard all changes knows the last hash. -/
theorem latest_changes (path : Path) (seen : Option Hash) (l : List (Tree V)) :
    latest Delivery.hash? seen (changes path seen l) = latest (Tree.hash? · path) seen l := by
  induction l generalizing seen with
  | nil => rfl
  | cons tree rest ih =>
    have hhead : latest Delivery.hash? seen (change path seen tree) = tree.hash? path := by
      rw [change]
      split
      · next h => exact h.symm
      · exact hash?_ofSubtree? tree path
    rw [changes, latest_append, hhead, ih, latest_cons]

theorem toList_between? (previous : Option (Tree V)) (tree : Tree V) (path : Path) :
    (Delivery.between? previous tree path).toList =
      change path (previous.bind (Tree.hash? · path)) tree := by
  cases previous with
  | none =>
    rw [Delivery.between?, change]
    cases h : tree.subtree? path with
    | none => simp [Tree.hash?, Tree.subtree?_eq_none.mp h]
    | some u => simp [Tree.hash?, (Tree.subtree?_eq_some.mp h).1, Delivery.ofSubtree?]
  | some previous =>
    rw [Delivery.between?, change, Tree.agreesAt]
    by_cases h : previous.hash? path = tree.hash? path
    · simp [h]
    · simp [h, Ne.symm h]

namespace Entry

/-- What the entry delivers to a listener. -/
def delivery? (r : RegistryId) (id : ListenerId) : Entry V N → Option (Delivery V)
  | invoked u _ id' d => if u.registry = r ∧ id' = id then some d else none
  | _ => none

/-- The registration that the entry makes. -/
def registration? : Entry V N → Option (RegistryId × Path × ListenerId)
  | registered r path id => some (r, path, id)
  | _ => none

theorem registration?_eq_some {r : RegistryId} {path : Path} {id : ListenerId} {e : Entry V N} :
    e.registration? = some (r, path, id) ↔ e = .registered r path id := by
  cases e <;> simp [registration?]

/-- A journal that starts with two registrations. -/
theorem eq_registered_cons_cons {h : List (Entry V N)} {r r' : RegistryId} {path path' : Path}
    {id id' : ListenerId}
    (hs : (h.take 2).map registration? = [some (r, path, id), some (r', path', id')]) :
    h = .registered r path id :: .registered r' path' id' :: h.drop 2 := by
  obtain ⟨e, l, htake, he, hl⟩ := List.map_eq_cons_iff.mp hs
  obtain ⟨e', l', rfl, he', hl'⟩ := List.map_eq_cons_iff.mp hl
  have hsplit := List.take_append_drop 2 h
  rw [htake, List.map_eq_nil_iff.mp hl', registration?_eq_some.mp he,
    registration?_eq_some.mp he'] at hsplit
  exact hsplit.symm

/-- Whether the entry ends a registration. -/
def isCancellation (r : RegistryId) (path : Path) (id : ListenerId) : Entry V N → Bool
  | cancelled r' path' id' => r' = r ∧ path' = path ∧ id' = id
  | _ => false

theorem isCancellation_iff {r : RegistryId} {path : Path} {id : ListenerId} {e : Entry V N} :
    e.isCancellation r path id = true ↔ e = .cancelled r path id := by
  cases e <;> simp [isCancellation]

end Entry

/-- What was delivered to a listener. -/
def deliveries (r : RegistryId) (id : ListenerId) (h : List (Entry V N)) : List (Delivery V) :=
  h.filterMap (Entry.delivery? r id)

/-- What happened until a registration was cancelled. -/
def whileRegistered (r : RegistryId) (path : Path) (id : ListenerId) (h : List (Entry V N)) :
    List (Entry V N) := h.takeWhile fun e => !e.isCancellation r path id

theorem deliveries_append (r : RegistryId) (id : ListenerId) (h h' : List (Entry V N)) :
    deliveries r id (h ++ h') = deliveries r id h ++ deliveries r id h' := List.filterMap_append

theorem takeWhile_concat {α : Type} (p : α → Bool) (l : List α) (a : α) :
    (l ++ [a]).takeWhile p = l.takeWhile p ++ if l.all p ∧ p a then [a] else [] := by
  induction l with
  | nil => simp [List.takeWhile_cons]
  | cons b rest ih =>
    rw [List.cons_append, List.takeWhile_cons, List.takeWhile_cons]
    cases hb : p b with
    | false => simp [hb]
    | true => simp [hb, ih]

section Registration

variable {r : RegistryId} {path : Path} {id : ListenerId} {h : List (Entry V N)}

theorem all_not_isCancellation_iff :
    h.all (fun e => !e.isCancellation r path id) = true ↔ .cancelled r path id ∉ h := by
  rw [List.all_eq_true]
  constructor
  · intro hall hm
    have hself := hall _ hm
    rw [Entry.isCancellation_iff.mpr rfl] at hself
    cases hself
  · intro hc e he
    cases hb : e.isCancellation r path id with
    | false => rfl
    | true => exact absurd (Entry.isCancellation_iff.mp hb ▸ he) hc

theorem whileRegistered_eq (hc : .cancelled r path id ∉ h) : whileRegistered r path id h = h :=
  List.takeWhile_eq_self_iff.mpr (List.all_eq_true.mp (all_not_isCancellation_iff.mpr hc))

theorem whileRegistered_concat_of_cancelled (hc : .cancelled r path id ∈ h) (e : Entry V N) :
    whileRegistered r path id (h ++ [e]) = whileRegistered r path id h := by
  have hall : ¬ (h.all fun e => !e.isCancellation r path id) = true := fun hall =>
    all_not_isCancellation_iff.mp hall hc
  rw [whileRegistered, takeWhile_concat, if_neg fun hb => hall hb.1, List.append_nil]
  rfl

theorem snapshots_whileRegistered_concat {e : Entry V N} (he : e.snapshot? r = none) :
    snapshots r (whileRegistered r path id (h ++ [e])) =
      snapshots r (whileRegistered r path id h) := by
  rw [whileRegistered, takeWhile_concat, snapshots_append]
  split
  · simp [snapshots, he, whileRegistered]
  · simp [snapshots, whileRegistered]

end Registration

/-- The hash at a path now, from the hash before a piece of the journal. -/
theorem hash?_current?_append (r : RegistryId) (path : Path) (h h' : List (Entry V N)) :
    (current? r (h ++ h')).bind (Tree.hash? · path) =
      latest (Tree.hash? · path) ((current? r h).bind (Tree.hash? · path)) (snapshots r h') := by
  rw [current?, current?, ← latest_none, ← latest_none, snapshots_append, latest_append]

/-- The hash at a path now, from the hash when a listener was registered and what came after. -/
theorem hash?_current? {h before after : List (Entry V N)} {r : RegistryId} {path : Path}
    {id : ListenerId} (hs : h = before ++ .registered r path id :: after) :
    (current? r h).bind (Tree.hash? · path) =
      latest (Tree.hash? · path) ((current? r before).bind (Tree.hash? · path))
        (snapshots r after) := by
  rw [hs, hash?_current?_append]
  rfl

/-- One more snapshot for a listener that is still registered. -/
theorem changes_applied {h before after : List (Entry V N)} {u : Update} {path : Path}
    {id : ListenerId} (hs : h = before ++ .registered u.registry path id :: after)
    (hc : .cancelled u.registry path id ∉ after) (tree : Tree V) (changed : Nat) :
    changes path ((current? u.registry before).bind (Tree.hash? · path)) (snapshots u.registry
        (whileRegistered u.registry path id (after ++ [.applied u tree changed]))) =
      changes path ((current? u.registry before).bind (Tree.hash? · path))
          (snapshots u.registry (whileRegistered u.registry path id after)) ++
        change path ((current? u.registry h).bind (Tree.hash? · path)) tree := by
  have hc' : .cancelled u.registry path id ∉ after ++ [.applied u tree changed] := by
    simpa using hc
  rw [whileRegistered_eq hc, whileRegistered_eq hc', snapshots_concat_applied rfl, changes_append,
    hash?_current? hs, changes, changes, List.append_nil]

/-- The last entry of a list that has `x` somewhere. -/
theorem concat_eq_append_cons {α : Type} {h before after : List α} {e x : α}
    (hs : h ++ [e] = before ++ x :: after) :
    (before = h ∧ x = e ∧ after = []) ∨
      ∃ after', after = after' ++ [e] ∧ h = before ++ x :: after' := by
  rcases List.eq_nil_or_concat after with rfl | ⟨after', y, rfl⟩
  · obtain ⟨rfl, he⟩ := List.append_inj' hs rfl
    exact .inl ⟨rfl, (List.cons.inj he).1.symm, rfl⟩
  · rw [List.concat_eq_append, ← List.cons_append, ← List.append_assoc] at hs
    obtain ⟨rfl, he⟩ := List.append_inj' hs rfl
    exact .inr ⟨after', by rw [List.concat_eq_append, (List.cons.inj he).1], rfl⟩

/-- Together with the deliveries that are owed, every registered listener has heard exactly the
changes while it was registered, and nobody else has heard anything. -/
structure Settled (h owed : List (Entry V N)) : Prop where
  unheard : ∀ r id, (∀ path, .registered r path id ∉ h) → deliveries r id (h ++ owed) = []
  heard : ∀ r path id before after, h = before ++ .registered r path id :: after →
    deliveries r id (h ++ owed) =
      changes path ((current? r before).bind (Tree.hash? · path))
        (snapshots r (whileRegistered r path id after))

/-- An entry that applies no snapshot. What it delivers was owed before. -/
theorem Settled.concat {h owed owed' : List (Entry V N)} {e : Entry V N} (hs : Settled h owed)
    (he : ∀ r, e.snapshot? r = none)
    (hd : ∀ r id, deliveries r id (e :: owed') = deliveries r id owed)
    (hfresh : ∀ r path id, e = .registered r path id → ∀ path', .registered r path' id ∉ h) :
    Settled (h ++ [e]) owed' := by
  have hsame : ∀ r id, deliveries r id (h ++ [e] ++ owed') = deliveries r id (h ++ owed) := by
    intro r id
    rw [List.append_assoc, List.singleton_append, deliveries_append, deliveries_append, hd]
  constructor
  · intro r id hno
    rw [hsame]
    exact hs.unheard r id fun path hm => hno path (List.mem_append_left _ hm)
  · intro r path id before after hsplit
    rw [hsame]
    rcases concat_eq_append_cons hsplit with ⟨rfl, hx, rfl⟩ | ⟨after', rfl, hbefore⟩
    · -- the registration itself: nothing was delivered under its number
      exact hs.unheard r id (hfresh r path id hx.symm)
    · rw [snapshots_whileRegistered_concat (he r)]
      exact hs.heard r path id before after' hbefore

/-- A snapshot is applied, and what changed by it is owed to those who are registered. -/
theorem Settled.applied {h owed : List (Entry V N)} (hs : Settled h []) (ho : IssuedOnce h)
    (u : Update) (tree : Tree V) (changed : Nat)
    (hother : ∀ r id, r ≠ u.registry → deliveries r id owed = [])
    (hout : ∀ id, (∀ path, ¬ Listed u.registry path id h) → deliveries u.registry id owed = [])
    (howed : ∀ path id, Listed u.registry path id h →
      deliveries u.registry id owed =
        change path ((current? u.registry h).bind (Tree.hash? · path)) tree) :
    Settled (h ++ [.applied u tree changed]) owed := by
  have hsame : ∀ r id, deliveries r id (h ++ [.applied u tree changed] ++ owed) =
      deliveries r id (h ++ []) ++ deliveries r id owed := by
    intro r id
    rw [deliveries_append, deliveries_append, deliveries_append]
    rfl
  constructor
  · intro r id hno
    have hno' : ∀ path, .registered r path id ∉ h := fun path hm =>
      hno path (List.mem_append_left _ hm)
    rw [hsame, hs.unheard r id hno', List.nil_append]
    by_cases hr : r = u.registry
    · cases hr
      exact hout id fun path hm => hno' path hm.1
    · exact hother r id hr
  · intro r path id before after hsplit
    rw [hsame]
    rcases concat_eq_append_cons hsplit with ⟨-, hx, -⟩ | ⟨after', rfl, hbefore⟩
    · cases hx
    have hmem : .registered r path id ∈ h := by
      rw [hbefore]
      exact List.mem_append_right _ List.mem_cons_self
    rw [hs.heard r path id before after' hbefore]
    by_cases hr : r = u.registry
    · cases hr
      by_cases hc : .cancelled u.registry path id ∈ h
      · have hnone : deliveries u.registry id owed = [] :=
          hout id fun path' hm => hm.2 (ho.path_eq hm.1 hmem ▸ hc)
        rw [hnone, List.append_nil,
          whileRegistered_concat_of_cancelled ((ho.cancelled_mem_iff hbefore).mp hc)]
      · rw [howed path id ⟨hmem, hc⟩,
          changes_applied hbefore fun ha => hc ((ho.cancelled_mem_iff hbefore).mpr ha)]
    · have hnone : (Entry.applied u tree changed : Entry V N).snapshot? r = none :=
        if_neg fun hu => hr hu.symm
      rw [hother r id hr, List.append_nil, snapshots_whileRegistered_concat hnone]

end ConfigTree
