import ConfigTree.Proofs.Grammar
import ConfigTree.Proofs.Tables
import ConfigTree.Registry.Settings
/-!
# Which texts are settings

A text is read as settings if it spells an object of known keys, none of them twice, or an array of
at most two items (`Settings.Fields.GivenBy`), and the name is not blank; any other text is refused
(`Settings.ofJson_exact`). The members are read in the order of the text, and what holds of the
members so far (`Settings.Fields.AreMembers`) is kept with each.
-/

namespace ConfigTree

open Json (Spaces Spells SpellsItems SpellsMembers)
open Json.Reader

namespace Algorithm

/-- The values that are read as an algorithm: its name, or an object from its name to null. -/
def GivenBy (a : Algorithm) (v : Json) : Prop :=
  v = .string a.name ∨ v = .object [(a.name, .null)]

theorem name_inj {a b : Algorithm} (h : a.name = b.name) : a = b := by
  cases a <;> cases b <;> first | rfl | exact absurd h (by decide)

theorem GivenBy.unique {a b : Algorithm} {v : Json} (ha : a.GivenBy v) (hb : b.GivenBy v) :
    a = b := by
  rcases ha with rfl | rfl
  · rcases hb with hb | hb
    · exact name_inj (Json.string.inj hb)
    · cases hb
  · rcases hb with hb | hb
    · cases hb
    · exact name_inj (Prod.mk.inj (List.cons.inj (Json.object.inj hb)).1).1

theorem ofReadName_eq_ok_iff {name : String} {a : Algorithm} :
    ofReadName name = .ok a ↔ name = a.name := by
  constructor
  · intro h
    simp only [ofReadName, ofExactName?] at h
    split at h
    · next b hb =>
      obtain rfl := Except.ok.inj h
      split at hb
      · next hname => cases hb; exact hname
      · split at hb
        · next hname => cases hb; exact hname
        · cases hb
    · cases h
  · rintro rfl
    cases a <;> rfl

theorem reader_eq_ok_iff {cs rest : List Char} {a : Algorithm} :
    reader cs = .ok (a, rest) ↔ ∃ spaces used v, cs = spaces ++ (used ++ rest) ∧ Spaces spaces ∧
      Spells v used ∧ a.GivenBy v := by
  constructor
  · intro h
    unfold reader at h
    split at h
    · cases h
    · next tail hskip =>
      simp only [bind_eq_ok_iff, Prod.exists, stringBody_eq_ok_iff, ofReadName_eq_ok_iff] at h
      obtain ⟨name, _, ⟨used, rfl, hs⟩, _, rfl, h⟩ := h
      obtain ⟨rfl, rfl⟩ := Prod.mk.inj (Except.ok.inj h)
      obtain ⟨spaces, rfl, hspaces⟩ := (skipSpace_eq_cons_iff rfl).mp hskip
      exact ⟨spaces, _, _, by simp, hspaces, .string (.quoted hs), .inl rfl⟩
    · next tail hskip =>
      obtain ⟨key?, hkey, hread⟩ := bind_eq_ok_iff.mp h
      cases key? with
      | none => cases hread
      | some tail =>
        simp only [bind_eq_ok_iff, Prod.exists, stringBody_eq_ok_iff, ofReadName_eq_ok_iff,
          colon_eq_ok_iff, unit_eq_ok_iff, closeObject_eq_ok_iff] at hread
        obtain ⟨name, _, ⟨used, rfl, hs⟩, _, rfl, _, ⟨before, rfl, hbefore⟩, _, _,
          ⟨after, rfl, hafter⟩, _, ⟨last, rfl, hlast⟩, hread⟩ := hread
        obtain ⟨rfl, rfl⟩ := Prod.mk.inj (Except.ok.inj hread)
        obtain ⟨gap, rfl, hgap⟩ := nextKey_eq_some_iff.mp hkey
        obtain ⟨spaces, rfl, hspaces⟩ := (skipSpace_eq_cons_iff rfl).mp hskip
        exact ⟨spaces, _, _, by simp, hspaces,
          .object (.cons hgap (.quoted hs) hbefore hafter .null (.nil hlast)), .inr rfl⟩
    · cases h
  · rintro ⟨spaces, used, v, rfl, hspaces, hused, hv⟩
    rw [reader, skipSpace_append hspaces]
    rcases hv with rfl | rfl
    · cases hused with
      | string hs =>
        obtain ⟨hs⟩ := hs
        refine bind_eq_ok_iff.mpr ⟨(a.name, rest), stringBody_eq_ok_iff.mpr ⟨_, by simp, hs⟩, ?_⟩
        exact bind_eq_ok_iff.mpr ⟨a, ofReadName_eq_ok_iff.mpr rfl, rfl⟩
    · cases hused with
      | object hmembers =>
        cases hmembers with
        | cons hgap hkey hbefore hafter hnull hlast =>
          obtain ⟨hs⟩ := hkey
          obtain ⟨⟩ := hnull
          obtain ⟨hlast⟩ := hlast
          simp only [List.cons_append, List.append_assoc]
          refine bind_eq_ok_iff.mpr ⟨some _, nextKey_eq_some_iff.mpr ⟨_, rfl, hgap⟩, ?_⟩
          simp only [bind_eq_ok_iff, Prod.exists, stringBody_eq_ok_iff, ofReadName_eq_ok_iff,
            colon_eq_ok_iff, unit_eq_ok_iff, closeObject_eq_ok_iff]
          exact ⟨_, _, ⟨_, rfl, hs⟩, a, rfl, _, ⟨_, rfl, hbefore⟩, (), _, ⟨_, rfl, hafter⟩, _,
            ⟨_, rfl, hlast⟩, rfl⟩

end Algorithm

namespace Settings

namespace Fields

/-- What a member does to the fields so far: it gives one that no member before it gave. -/
inductive Takes : Fields → String × Json → Fields → Prop
  | name {digest s} : Takes ⟨none, digest⟩ ("name", .string s) ⟨some s, digest⟩
  | digest {name v a} : a.GivenBy v → Takes ⟨name, none⟩ ("digest", v) ⟨name, some a⟩

/-- Members that give these fields: all keys are known, and none is there twice. -/
structure AreMembers (f : Fields) (members : List (String × Json)) : Prop where
  known : ∀ m ∈ members, m.1 = "name" ∨ m.1 = "digest"
  nodup : (members.map Prod.fst).Nodup
  name : Table.get? "name" members = f.name.map .string
  digest : Option.Rel Algorithm.GivenBy f.digest (Table.get? "digest" members)

theorem AreMembers.nil : AreMembers {} [] := ⟨nofun, List.nodup_nil, rfl, .none⟩

section
variable {f g : Fields} {m : String × Json} {before after members : List (String × Json)}

theorem get?_append_cons (after : List (String × Json)) (h : Table.get? m.1 before = none) :
    Table.get? m.1 (before ++ m :: after) = some m.2 := by
  rw [Table.get?_append, h]
  exact if_pos rfl

theorem get?_append_singleton_of_ne {key other : String} {v : Json} (h : key ≠ other) :
    Table.get? key (before ++ [(other, v)]) = Table.get? key before := by
  rw [Table.get?_append, Table.get?, if_neg h]
  exact Option.or_none

theorem AreMembers.name_eq_none_iff (hf : f.AreMembers members) :
    f.name = none ↔ Table.get? "name" members = none := by
  rw [hf.name, Option.map_eq_none_iff]

theorem AreMembers.digest_eq_none_iff (hf : f.AreMembers members) :
    f.digest = none ↔ Table.get? "digest" members = none := by
  have h := hf.digest
  generalize f.digest = digest at h
  generalize Table.get? "digest" members = found at h
  cases h <;> simp

/-- A member that gives a field keeps the others. -/
theorem AreMembers.takes (hf : f.AreMembers before) (h : f.Takes m g) :
    g.AreMembers (before ++ [m]) := by
  have hfresh : Table.get? m.1 before = none := by
    cases h with
    | name => exact hf.name_eq_none_iff.mp rfl
    | digest h => exact hf.digest_eq_none_iff.mp rfl
  have hfound := get?_append_cons [] hfresh
  refine ⟨List.forall_mem_append.mpr ⟨hf.known, ?_⟩, ?_, ?_, ?_⟩
  · rw [List.forall_mem_singleton]
    cases h with
    | name => exact .inl rfl
    | digest => exact .inr rfl
  · rw [List.map_append, List.nodup_append]
    refine ⟨hf.nodup, List.nodup_cons.mpr ⟨List.not_mem_nil, List.nodup_nil⟩, ?_⟩
    rintro key hkey _ hm rfl
    rw [List.mem_singleton.mp hm] at hkey
    obtain ⟨other, hother, he⟩ := List.mem_map.mp hkey
    exact Table.get?_eq_none_iff.mp hfresh other hother he
  · cases h with
    | name => exact hfound
    | digest => rw [get?_append_singleton_of_ne (by decide), hf.name]
  · cases h with
    | name => rw [get?_append_singleton_of_ne (by decide)]; exact hf.digest
    | digest h => rw [hfound]; exact .some h

/-- A member of a known key that no member before it has gives a field. -/
theorem AreMembers.exists_takes (hf : f.AreMembers before)
    (hg : g.AreMembers (before ++ m :: after)) : ∃ next, f.Takes m next := by
  have hfresh : Table.get? m.1 before = none := by
    refine Table.get?_eq_none fun other hother he => ?_
    have hnodup := hg.nodup
    rw [List.map_append, List.nodup_append] at hnodup
    exact hnodup.2.2 m.1 (he ▸ List.mem_map_of_mem hother) m.1 List.mem_cons_self rfl
  have hfound := get?_append_cons after hfresh
  obtain ⟨key, v⟩ := m
  obtain ⟨name, digest⟩ := f
  rcases hg.known _ (List.mem_append_right _ List.mem_cons_self) with rfl | rfl
  · obtain rfl := hf.name_eq_none_iff.mpr hfresh
    obtain ⟨s, -, rfl⟩ := Option.map_eq_some_iff.mp (hg.name.symm.trans hfound)
    exact ⟨_, .name⟩
  · obtain rfl := hf.digest_eq_none_iff.mpr hfresh
    have hv := hg.digest
    rw [hfound] at hv
    generalize g.digest = digest at hv
    cases hv with
    | some ha => exact ⟨_, .digest ha⟩

/-- Members tell the fields. -/
theorem AreMembers.unique (hf : f.AreMembers members) (hg : g.AreMembers members) : f = g := by
  obtain ⟨-, -, hname, hdigest⟩ := hf
  obtain ⟨-, -, hname', hdigest'⟩ := hg
  obtain ⟨name, digest⟩ := f
  obtain ⟨name', digest'⟩ := g
  obtain rfl : name = name' :=
    (Option.map_inj_right fun _ _ => Json.string.inj).mp (hname.symm.trans hname')
  generalize Table.get? "digest" members = found at hdigest hdigest'
  cases hdigest with
  | none =>
    cases hdigest'
    rfl
  | some ha =>
    cases hdigest' with
    | some hb => rw [ha.unique hb]

end

end Fields

theorem readField_eq_ok_iff {key : String} {f g : Fields} {cs rest : List Char} :
    readField key f cs = .ok (g, rest) ↔ ∃ before after used v,
      cs = before ++ ':' :: (after ++ (used ++ rest)) ∧ Spaces before ∧ Spaces after ∧
      Spells v used ∧ f.Takes (key, v) g := by
  constructor
  · intro h
    obtain ⟨name, digest⟩ := f
    unfold readField at h
    split at h
    · next hkey =>
      split at h
      · cases h
      · next hnone =>
        obtain rfl := Option.not_isSome_iff_eq_none.mp hnone
        simp only [bind_eq_ok_iff, Prod.exists, colon_eq_ok_iff, text_eq_ok_iff] at h
        obtain ⟨_, ⟨before, rfl, hbefore⟩, s, _, ⟨after, used, rfl, hafter, hs⟩, h⟩ := h
        obtain ⟨rfl, rfl⟩ := Prod.mk.inj (Except.ok.inj h)
        exact ⟨before, after, used, _, rfl, hbefore, hafter, .string hs, hkey ▸ .name⟩
    · split at h
      · next hkey =>
        split at h
        · cases h
        · next hnone =>
          obtain rfl := Option.not_isSome_iff_eq_none.mp hnone
          simp only [bind_eq_ok_iff, Prod.exists, colon_eq_ok_iff, Algorithm.reader_eq_ok_iff] at h
          obtain ⟨_, ⟨before, rfl, hbefore⟩, a, _, ⟨after, used, v, rfl, hafter, hv, ha⟩, h⟩ := h
          obtain ⟨rfl, rfl⟩ := Prod.mk.inj (Except.ok.inj h)
          exact ⟨before, after, used, v, rfl, hbefore, hafter, hv, hkey ▸ .digest ha⟩
      · cases h
  · rintro ⟨before, after, used, v, rfl, hbefore, hafter, hused, htakes⟩
    cases htakes with
    | name =>
      cases hused with
      | string hs =>
        show (colon _ >>= fun _ => _) = _
        simp only [bind_eq_ok_iff, Prod.exists, colon_eq_ok_iff, text_eq_ok_iff]
        exact ⟨_, ⟨_, rfl, hbefore⟩, _, _, ⟨_, _, rfl, hafter, hs⟩, rfl⟩
    | digest ha =>
      show (colon _ >>= fun _ => _) = _
      simp only [bind_eq_ok_iff, Prod.exists, colon_eq_ok_iff, Algorithm.reader_eq_ok_iff]
      exact ⟨_, ⟨_, rfl, hbefore⟩, _, _, ⟨_, _, _, rfl, hafter, hused, ha⟩, rfl⟩

/-- The members that are read, up to the closing brace, are those of an object. -/
theorem readMembers_sound {bound : Nat} {first : Bool} {f g : Fields} {cs close rest : List Char}
    {before : List (String × Json)} (hf : f.AreMembers before)
    (h : readMembers bound first f cs = .ok (g, close)) (hclose : closeObject close = .ok rest) :
    ∃ members used, cs = used ++ '\x7d' :: rest ∧ SpellsMembers first members used ∧
      g.AreMembers (before ++ members) := by
  -- with each member, the fields so far stay those of all members before
  induction bound generalizing first f cs before with
  | zero => cases h
  | succ bound ih =>
    obtain ⟨key?, hkey, hread⟩ := bind_eq_ok_iff.mp h
    cases key? with
    | none =>
      obtain ⟨rfl, rfl⟩ := Prod.mk.inj (Except.ok.inj hread)
      obtain ⟨spaces, rfl, hspaces⟩ := closeObject_eq_ok_iff.mp hclose
      exact ⟨[], spaces, rfl, .nil hspaces, by rwa [List.append_nil]⟩
    | some tail =>
      simp only [bind_eq_ok_iff, Prod.exists, stringBody_eq_ok_iff, readField_eq_ok_iff] at hread
      obtain ⟨key, _, ⟨inner, rfl, hs⟩, next, _,
        ⟨gap, after, used, v, rfl, hgap, hafter, hused, htakes⟩, hread⟩ := hread
      obtain ⟨members, more, rfl, hmembers, hg⟩ := ih (hf.takes htakes) hread
      obtain ⟨lead, rfl, hlead⟩ := nextKey_eq_some_iff.mp hkey
      refine ⟨(key, v) :: members, _, ?_, .cons hlead (.quoted hs) hgap hafter hused hmembers, ?_⟩
      · simp
      · rwa [List.append_cons]

/-- The members of an object are read, up to the closing brace. -/
theorem readMembers_complete {first : Bool} {members : List (String × Json)} {used : List Char}
    (h : SpellsMembers first members used) {bound : Nat} (hbound : members.length < bound)
    {f g : Fields} {before : List (String × Json)} (hf : f.AreMembers before)
    (hg : g.AreMembers (before ++ members)) (rest : List Char) :
    ∃ close, readMembers bound first f (used ++ '\x7d' :: rest) = .ok (g, close) ∧
      closeObject close = .ok rest := by
  induction members generalizing first used bound f before with
  | nil =>
    obtain ⟨hspaces⟩ := h
    rw [List.append_nil] at hg
    obtain rfl := hf.unique hg
    cases bound with
    | zero => cases hbound
    | succ bound =>
      refine ⟨_, bind_eq_ok_iff.mpr ⟨none, nextKey_end hspaces first rest, rfl⟩, ?_⟩
      exact closeObject_eq_ok_iff.mpr ⟨_, rfl, hspaces⟩
  | cons m members ih =>
    obtain ⟨next, htakes⟩ := hf.exists_takes hg
    rw [List.append_cons] at hg
    cases h with
    | cons hgap hkey hbefore hafter hused hmembers =>
      obtain ⟨hs⟩ := hkey
      cases bound with
      | zero => cases hbound
      | succ bound =>
        obtain ⟨close, hread, hclose⟩ :=
          ih hmembers (Nat.lt_of_succ_lt_succ hbound) (hf.takes htakes) hg
        refine ⟨close, ?_, hclose⟩
        simp only [List.cons_append, List.append_assoc, List.nil_append]
        refine bind_eq_ok_iff.mpr ⟨some _, nextKey_eq_some_iff.mpr ⟨_, rfl, hgap⟩, ?_⟩
        simp only [bind_eq_ok_iff, Prod.exists, stringBody_eq_ok_iff, readField_eq_ok_iff]
        exact ⟨_, _, ⟨_, rfl, hs⟩, next, _, ⟨_, _, _, _, rfl, hbefore, hafter, hused, htakes⟩,
          hread⟩

/-- Items that give these fields: at most the name and the digest, in this order. -/
structure Fields.AreItems (f : Fields) (items : List Json) : Prop where
  length_le : items.length ≤ 2
  name : items[0]? = f.name.map .string
  digest : Option.Rel Algorithm.GivenBy f.digest items[1]?

theorem readItems_sound {f : Fields} {cs close rest : List Char}
    (h : readItems cs = .ok (f, close)) (hclose : closeArray close = .ok rest) :
    ∃ items used, cs = used ++ ']' :: rest ∧ SpellsItems true items used ∧ f.AreItems items := by
  obtain ⟨item?, hitem, hread⟩ := bind_eq_ok_iff.mp h
  cases item? with
  | none =>
    obtain ⟨rfl, rfl⟩ := Prod.mk.inj (Except.ok.inj hread)
    obtain ⟨spaces, rfl, hspaces⟩ := closeArray_eq_ok_iff.mp hclose
    exact ⟨[], spaces, rfl, .nil hspaces, Nat.zero_le _, rfl, .none⟩
  | some tail =>
    simp only [bind_eq_ok_iff, Prod.exists, text_eq_ok_iff] at hread
    obtain ⟨name, _, ⟨spaces, used, rfl, hspaces, hs⟩, item?, hnext, hread⟩ := hread
    obtain ⟨gap, rfl, hgap, -⟩ := nextItem_eq_some_iff.mp hitem
    have hgap := hgap.append hspaces
    cases item? with
    | none =>
      obtain ⟨rfl, rfl⟩ := Prod.mk.inj (Except.ok.inj hread)
      obtain ⟨last, rfl, hlast⟩ := closeArray_eq_ok_iff.mp hclose
      exact ⟨[.string name], _, by simp, .cons hgap (.string hs) (.nil hlast), Nat.le_succ 1, rfl,
        .none⟩
    | some tail =>
      simp only [bind_eq_ok_iff, Prod.exists, Algorithm.reader_eq_ok_iff] at hread
      obtain ⟨digest, _, ⟨more, word, v, rfl, hmore, hv, hdigest⟩, hread⟩ := hread
      obtain ⟨rfl, rfl⟩ := Prod.mk.inj (Except.ok.inj hread)
      obtain ⟨comma, rfl, hcomma, -⟩ := nextItem_eq_some_iff.mp hnext
      obtain ⟨last, rfl, hlast⟩ := closeArray_eq_ok_iff.mp hclose
      exact ⟨[.string name, v], _, by simp, .cons hgap (.string hs)
        (.cons (hcomma.append hmore) hv (.nil hlast)), Nat.le_refl 2, rfl, .some hdigest⟩

theorem readItems_complete {items : List Json} {used : List Char}
    (h : SpellsItems true items used) {f : Fields} (hf : f.AreItems items) (rest : List Char) :
    ∃ close, readItems (used ++ ']' :: rest) = .ok (f, close) ∧ closeArray close = .ok rest := by
  obtain ⟨hlength, hname, hdigest⟩ := hf
  obtain ⟨name, digest⟩ := f
  cases h with
  | nil hspaces =>
    obtain rfl := Option.map_eq_none_iff.mp hname.symm
    -- without a first item there is no second
    cases hdigest
    refine ⟨_, bind_eq_ok_iff.mpr ⟨none, nextItem_end hspaces true rest, rfl⟩, ?_⟩
    exact closeArray_eq_ok_iff.mpr ⟨_, rfl, hspaces⟩
  | @cons _ gap _ text _ more hgap hname' hitems =>
    obtain ⟨s, rfl, rfl⟩ := Option.map_eq_some_iff.mp hname.symm
    have htext : ∀ rest, Json.Reader.text (text ++ rest) = .ok (s, rest) := by
      cases hname' with
      | string hs => exact fun rest => text_eq_ok_iff.mpr ⟨[], text, rfl, nofun, hs⟩
    have hfirst := nextItem_spells hgap hname' (more ++ ']' :: rest)
    simp only [List.append_assoc]
    cases hitems with
    | nil hspaces =>
      cases hdigest
      refine ⟨more ++ ']' :: rest, ?_, closeArray_eq_ok_iff.mpr ⟨_, rfl, hspaces⟩⟩
      refine bind_eq_ok_iff.mpr ⟨_, hfirst, bind_eq_ok_iff.mpr ⟨_, htext _, ?_⟩⟩
      exact bind_eq_ok_iff.mpr ⟨none, nextItem_end hspaces false rest, rfl⟩
    | cons hcomma hv hlast =>
      cases hlast with
      | cons =>
        simp only [List.length_cons] at hlength
        omega
      | nil hspaces =>
        cases hdigest with
        | some ha =>
          have hsecond := nextItem_spells hcomma hv
          simp only [List.append_assoc] at hfirst ⊢
          refine ⟨_, ?_, closeArray_eq_ok_iff.mpr ⟨_, rfl, hspaces⟩⟩
          refine bind_eq_ok_iff.mpr ⟨_, hfirst, bind_eq_ok_iff.mpr ⟨_, htext _, ?_⟩⟩
          refine bind_eq_ok_iff.mpr ⟨_, hsecond _, bind_eq_ok_iff.mpr ⟨(_, _), ?_, rfl⟩⟩
          exact Algorithm.reader_eq_ok_iff.mpr ⟨[], _, _, rfl, nofun, hv, ha⟩

/-- The values that give these fields: an object of their members, or an array of their items. -/
inductive Fields.GivenBy (f : Fields) : Json → Prop
  | members {members} : f.AreMembers members → f.GivenBy (.object members)
  | items {items} : f.AreItems items → f.GivenBy (.array items)

theorem reader_eq_ok_iff {cs rest : List Char} {s : Settings} :
    reader cs = .ok (s, rest) ↔ ∃ spaces used v f, cs = spaces ++ (used ++ rest) ∧
      Spaces spaces ∧ Spells v used ∧ f.GivenBy v ∧ s = ofFields f := by
  constructor
  · intro h
    unfold reader at h
    split at h
    · cases h
    · next tail hskip =>
      simp only [bind_eq_ok_iff, Prod.exists] at h
      obtain ⟨f, close, hread, _, hclose, h⟩ := h
      obtain ⟨rfl, rfl⟩ := Prod.mk.inj (Except.ok.inj h)
      obtain ⟨members, used, rfl, hused, hf⟩ := readMembers_sound .nil hread hclose
      obtain ⟨spaces, rfl, hspaces⟩ := (skipSpace_eq_cons_iff rfl).mp hskip
      exact ⟨spaces, _, _, f, by simp, hspaces, .object hused, .members hf, rfl⟩
    · next tail hskip =>
      simp only [bind_eq_ok_iff, Prod.exists] at h
      obtain ⟨f, close, hread, _, hclose, h⟩ := h
      obtain ⟨rfl, rfl⟩ := Prod.mk.inj (Except.ok.inj h)
      obtain ⟨items, used, rfl, hused, hf⟩ := readItems_sound hread hclose
      obtain ⟨spaces, rfl, hspaces⟩ := (skipSpace_eq_cons_iff rfl).mp hskip
      exact ⟨spaces, _, _, f, by simp, hspaces, .array hused, .items hf, rfl⟩
    · cases h
  · rintro ⟨spaces, used, v, f, rfl, hspaces, hused, hf, rfl⟩
    rw [reader, skipSpace_append hspaces]
    cases hf with
    | @members members hf =>
      cases hused with
      | @object _ inner hmembers =>
        have hlength := hmembers.length_le
        have hbound : members.length < (inner ++ '\x7d' :: rest).length + 1 := by
          rw [List.length_append]
          omega
        obtain ⟨close, hread, hclose⟩ := readMembers_complete hmembers hbound .nil hf rest
        simp only [List.cons_append, List.append_assoc, List.nil_append]
        refine bind_eq_ok_iff.mpr ⟨(f, close), hread, ?_⟩
        exact bind_eq_ok_iff.mpr ⟨rest, hclose, rfl⟩
    | items hf =>
      cases hused with
      | array hitems =>
        obtain ⟨close, hread, hclose⟩ := readItems_complete hitems hf rest
        simp only [List.cons_append, List.append_assoc, List.nil_append]
        refine bind_eq_ok_iff.mpr ⟨(f, close), hread, ?_⟩
        exact bind_eq_ok_iff.mpr ⟨rest, hclose, rfl⟩

theorem readAll_reader_eq_ok_iff {text : String} {s : Settings} :
    reader.readAll text = .ok s ↔
      ∃ v f, Json.SpelledBy v text ∧ Fields.GivenBy f v ∧ s = ofFields f := by
  simp only [readAll_eq_ok_iff, reader_eq_ok_iff]
  constructor
  · rintro ⟨after, ⟨before, used, v, f, htext, hbefore, hused, hf, hs⟩, hafter⟩
    exact ⟨v, f, ⟨htext, hbefore, hused, hafter⟩, hf, hs⟩
  · rintro ⟨v, f, ⟨htext, hbefore, hused, hafter⟩, hf, hs⟩
    exact ⟨_, ⟨_, _, v, f, htext, hbefore, hused, hf, hs⟩, hafter⟩

theorem validate_eq_ok_iff {s : Settings} :
    s.validate = .ok () ↔ ∃ c ∈ s.name.toList, Text.isWhite c = false := by
  simp [validate, Text.isBlank]

theorem ofJson_eq_ok_iff {text : String} {s : Settings} :
    ofJson text = .ok s ↔ reader.readAll text = .ok s ∧ s.validate = .ok () := by
  unfold ofJson
  cases reader.readAll text with
  | error e => exact ⟨nofun, nofun⟩
  | ok read =>
    show (read.validate >>= fun _ => .ok read) = _ ↔ _
    cases hvalid : read.validate with
    | error e =>
      refine ⟨nofun, ?_⟩
      rintro ⟨⟨⟩, h⟩
      rw [hvalid] at h
      cases h
    | ok u =>
      constructor
      · intro h
        obtain rfl := Except.ok.inj h
        exact ⟨rfl, hvalid⟩
      · rintro ⟨h, -⟩
        obtain rfl := Except.ok.inj h
        rfl

/-- Settings are read from exactly the texts of this form: one value with nothing but spaces around
it, which gives the fields, standard values standing for the missing ones, where the name is not
blank. So what is read is valid. -/
theorem ofJson_exact (text : String) (s : Settings) :
    (ofJson text = .ok s ↔
      (∃ v f, Json.SpelledBy v text ∧ Fields.GivenBy f v ∧
        s = ⟨f.name.getD "config", f.digest.getD .blake3⟩) ∧
      ∃ c ∈ s.name.toList, Text.isWhite c = false) ∧
    (ofJson text = .ok s → s.validate = .ok ()) := by
  refine ⟨?_, fun h => (ofJson_eq_ok_iff.mp h).2⟩
  rw [ofJson_eq_ok_iff, readAll_reader_eq_ok_iff, validate_eq_ok_iff]
  rfl

/-- The members stand in the other order, the algorithm is an object, and a key and the name are
written with escapes. -/
theorem ofJson_exact_at_odd_texts :
    let text := " \x7b\"digest\" : \x7b\"sha256\":null\x7d,\t" ++
      "\"n\\u0061me\" : \"\\ud83d\\uDE00\"\x7d\n"
    ofJson text = .ok ⟨"😀", .sha256⟩ ∧ Settings.validate ⟨"😀", .sha256⟩ = .ok () ∧
      ∃ v f, Json.SpelledBy v text ∧ Fields.GivenBy f v ∧
        (⟨"😀", .sha256⟩ : Settings) = ⟨f.name.getD "config", f.digest.getD .blake3⟩ := by
  intro text
  have hread : ofJson text = .ok ⟨"😀", .sha256⟩ := by
    unfold text
    rfl
  obtain ⟨hexact, hvalid⟩ := ofJson_exact text ⟨"😀", .sha256⟩
  exact ⟨hread, hvalid hread, (hexact.mp hread).1⟩

end Settings

end ConfigTree
