import ConfigTree.Proofs.Content
import ConfigTree.Proofs.DistinctTexts
import ConfigTree.Scheme
/-!
# The binary form of JSON values

The binary form has no tags, so that values of different kinds may share it: it is empty for null,
and eight zero bytes for zero, for the empty text, for the empty array and for the empty object. It
does tell a value from those that are alike: those of the same kind at every place that both have.
-/

namespace ConfigTree.Json

open Bytes (littleEndian)

def Number.binaryForm : Number → Bytes
  | .int n => littleEndian 8 (n % (Nat.pow 256 8 : Nat)).toNat
  | .double bits => littleEndian 8 bits.toNat
  | .single bits => littleEndian 4 bits.toNat

mutual
/-- The bytes that stand for a value. -/
def binaryForm : Json → Bytes
  | .null => []
  | .bool b => [if b then 1 else 0]
  | .number n => n.binaryForm
  | .string s => Datum.binaryLength (Bytes.ofString s).length ++ Bytes.ofString s
  | .array items => Datum.binaryLength items.length ++ itemForms items
  | .object members => Datum.binaryLength members.length ++ memberForms members
termination_by structural v => v

def itemForms : List Json → Bytes
  | [] => []
  | v :: rest => v.binaryForm ++ itemForms rest

def memberForms : List (String × Json) → Bytes
  | [] => []
  | (k, v) :: rest =>
    Datum.binaryLength (Bytes.ofString k).length ++ Bytes.ofString k ++ v.binaryForm ++
      memberForms rest
end

theorem length_ofItems (items : List Json) : (Datum.ofItems items).length = items.length := by
  induction items with
  | nil => rfl
  | cons v rest ih => rw [Datum.ofItems, List.length_cons, ih, List.length_cons]

theorem length_ofMembers (members : List (String × Json)) :
    (Datum.ofMembers members).length = members.length := by
  induction members with
  | nil => rfl
  | cons m rest ih => rw [Datum.ofMembers, List.length_cons, ih, List.length_cons]

mutual
/-- Every value has a binary form. -/
theorem binary_ofJson : ∀ v : Json, (Datum.ofJson v).binary = .ok v.binaryForm
  | .null => rfl
  | .bool _ => rfl
  | .number (.int _) => rfl
  | .number (.double _) => rfl
  | .number (.single _) => rfl
  | .string _ => rfl
  | .array items => by
    show (Datum.binaryItems (Datum.ofItems items)).bind _ = _
    rw [binaryItems_ofItems items, length_ofItems]
    rfl
  | .object members => by
    show (Datum.binaryEntries (Datum.ofMembers members)).bind _ = _
    rw [binaryEntries_ofMembers members, length_ofMembers]
    rfl

theorem binaryItems_ofItems : ∀ items : List Json,
    Datum.binaryItems (Datum.ofItems items) = .ok (itemForms items)
  | [] => rfl
  | v :: rest => by
    rw [Datum.ofItems, Datum.binaryItems, binary_ofJson v, binaryItems_ofItems rest]
    rfl

theorem binaryEntries_ofMembers : ∀ members : List (String × Json),
    Datum.binaryEntries (Datum.ofMembers members) = .ok (memberForms members)
  | [] => rfl
  | (k, v) :: rest => by
    rw [Datum.ofMembers, Datum.binaryEntries, binary_ofJson v, binaryEntries_ofMembers rest]
    rfl
end

mutual
/-- The description of a JSON value is written as that value. -/
theorem json_ofJson : ∀ v : Json, (Datum.ofJson v).json = .ok v
  | .null => rfl
  | .bool _ => rfl
  | .number (.int _) => rfl
  | .number (.double _) => rfl
  | .number (.single _) => rfl
  | .string _ => rfl
  | .array items => by
    show (Datum.jsonItems (Datum.ofItems items)).bind _ = _
    rw [jsonItems_ofItems items]
    rfl
  | .object members => by
    show (Datum.jsonEntries (Datum.ofMembers members)).bind _ = _
    rw [jsonEntries_ofMembers members]
    rfl

theorem jsonItems_ofItems : ∀ items : List Json, Datum.jsonItems (Datum.ofItems items) = .ok items
  | [] => rfl
  | v :: rest => by
    rw [Datum.ofItems, Datum.jsonItems, json_ofJson v, jsonItems_ofItems rest]
    rfl

theorem jsonEntries_ofMembers : ∀ members : List (String × Json),
    Datum.jsonEntries (Datum.ofMembers members) = .ok members
  | [] => rfl
  | (k, v) :: rest => by
    rw [Datum.ofMembers, Datum.jsonEntries, json_ofJson v, jsonEntries_ofMembers rest]
    rfl
end

mutual
/-- One kind at every place that both values have, where numbers are integers of one sign. -/
def Alike : Json → Json → Prop
  | .null, .null => True
  | .bool _, .bool _ => True
  | .number (.int m), .number (.int n) => m < 0 ↔ n < 0
  | .string _, .string _ => True
  | .array items, .array others => ItemsAlike items others
  | .object members, .object others => MembersAlike members others
  | _, _ => False
termination_by structural v => v

def ItemsAlike : List Json → List Json → Prop
  | v :: items, w :: others => v.Alike w ∧ ItemsAlike items others
  | _, _ => True

def MembersAlike : List (String × Json) → List (String × Json) → Prop
  | (_, v) :: members, (_, w) :: others => v.Alike w ∧ MembersAlike members others
  | _, _ => True
end

mutual
/-- The lengths that the form of a value holds. -/
def lengths : Json → List Nat
  | .string s => [(Bytes.ofString s).length]
  | .array items => items.length :: itemLengths items
  | .object members => members.length :: memberLengths members
  | _ => []
termination_by structural v => v

def itemLengths : List Json → List Nat
  | [] => []
  | v :: rest => v.lengths ++ itemLengths rest

def memberLengths : List (String × Json) → List Nat
  | [] => []
  | (k, v) :: rest => (Bytes.ofString k).length :: (v.lengths ++ memberLengths rest)
end

/-- Numbers that have a numeral, and lengths that fit eight bytes. -/
def Fit (numbers : List Number) (lengths : List Nat) : Prop :=
  (∀ n ∈ numbers, n.HasNumeral) ∧ ∀ n ∈ lengths, n < 2 ^ 64

instance (numbers : List Number) (lengths : List Nat) : Decidable (Fit numbers lengths) :=
  inferInstanceAs (Decidable ((∀ n ∈ numbers, n.HasNumeral) ∧ ∀ n ∈ lengths, n < 2 ^ 64))

theorem Fit.append {numbers more : List Number} {lengths others : List Nat}
    (h : Fit (numbers ++ more) (lengths ++ others)) : Fit numbers lengths ∧ Fit more others := by
  obtain ⟨hn, hmore⟩ := List.forall_mem_append.mp h.1
  obtain ⟨hl, hothers⟩ := List.forall_mem_append.mp h.2
  exact ⟨⟨hn, hl⟩, hmore, hothers⟩

/-- An integer of 64 bits is told by its eight bytes and its sign. -/
theorem littleEndian_int_inj {m n : Int} (hm : -2 ^ 63 ≤ m ∧ m < 2 ^ 64)
    (hn : -2 ^ 63 ≤ n ∧ n < 2 ^ 64) (hsign : m < 0 ↔ n < 0)
    (h : littleEndian 8 (m % (Nat.pow 256 8 : Nat)).toNat =
      littleEndian 8 (n % (Nat.pow 256 8 : Nat)).toNat) : m = n := by
  have hpow : ((Nat.pow 256 8 : Nat) : Int) = 2 ^ 64 := rfl
  rw [hpow] at h
  have hmod := Bytes.littleEndian_inj (by omega) (by omega) h
  omega

/-- A length in front is told, and what it stands in front of. -/
theorem binaryLength_append_inj {m n : Nat} (hm : m < 2 ^ 64) (hn : n < 2 ^ 64) {r r' : Bytes}
    (h : Datum.binaryLength m ++ r = Datum.binaryLength n ++ r') : m = n ∧ r = r' := by
  obtain ⟨hcount, hrest⟩ := List.append_inj h (by simp [Datum.binaryLength])
  exact ⟨Bytes.littleEndian_inj hm hn hcount, hrest⟩

/-- A text behind its length is told, and what follows it. -/
theorem text_append_inj {s t : String} (hs : (Bytes.ofString s).length < 2 ^ 64)
    (ht : (Bytes.ofString t).length < 2 ^ 64) {r r' : Bytes}
    (h : Datum.binaryLength (Bytes.ofString s).length ++ (Bytes.ofString s ++ r) =
      Datum.binaryLength (Bytes.ofString t).length ++ (Bytes.ofString t ++ r')) :
    s = t ∧ r = r' := by
  obtain ⟨hlen, h⟩ := binaryLength_append_inj hs ht h
  obtain ⟨hbytes, hrest⟩ := List.append_inj h hlen
  exact ⟨Bytes.ofString_inj hbytes, hrest⟩

mutual
/-- Of values that are alike, the form tells which one it is, and where the form ends. -/
theorem binaryForm_inj : ∀ (v w : Json) (r r' : Bytes), v.Alike w →
    Fit v.numbers v.lengths → Fit w.numbers w.lengths →
    v.binaryForm ++ r = w.binaryForm ++ r' → v = w ∧ r = r'
  | .null, w, r, r', hk, hv, hw, h => by
    cases w with
    | null => exact ⟨rfl, h⟩
    | _ => exact hk.elim
  | .bool b, w, r, r', hk, hv, hw, h => by
    cases w with
    | bool c =>
      obtain ⟨hb, hrest⟩ := List.cons.inj h
      cases b <;> cases c <;> first | exact ⟨rfl, hrest⟩ | exact absurd hb (by decide)
    | _ => exact hk.elim
  | .number (.int m), w, r, r', hk, hv, hw, h => by
    cases w with
    | number n =>
      cases n with
      | int n =>
        obtain ⟨hbytes, hrest⟩ := List.append_inj h (by simp [binaryForm, Number.binaryForm])
        have hvalue : m = n := littleEndian_int_inj (hv.1 _ List.mem_cons_self)
          (hw.1 _ List.mem_cons_self) hk hbytes
        exact ⟨congrArg Json.int hvalue, hrest⟩
      | _ => exact hk.elim
    | _ => exact hk.elim
  | .number (.double _), w, _, _, hk, _, _, _ => by cases w <;> exact hk.elim
  | .number (.single _), w, _, _, hk, _, _, _ => by cases w <;> exact hk.elim
  | .string s, w, r, r', hk, hv, hw, h => by
    cases w with
    | string t =>
      simp only [binaryForm, List.append_assoc] at h
      obtain ⟨rfl, hrest⟩ := text_append_inj (hv.2 _ List.mem_cons_self) (hw.2 _ List.mem_cons_self) h
      exact ⟨rfl, hrest⟩
    | _ => exact hk.elim
  | .array items, w, r, r', hk, hv, hw, h => by
    cases w with
    | array others =>
      obtain ⟨hlen, hv'⟩ := List.forall_mem_cons.mp hv.2
      obtain ⟨hlen', hw'⟩ := List.forall_mem_cons.mp hw.2
      simp only [binaryForm, List.append_assoc] at h
      obtain ⟨hcount, h⟩ := binaryLength_append_inj hlen hlen' h
      obtain ⟨rfl, hrest⟩ := itemForms_inj items others r r' hcount hk ⟨hv.1, hv'⟩ ⟨hw.1, hw'⟩ h
      exact ⟨rfl, hrest⟩
    | _ => exact hk.elim
  | .object members, w, r, r', hk, hv, hw, h => by
    cases w with
    | object others =>
      obtain ⟨hlen, hv'⟩ := List.forall_mem_cons.mp hv.2
      obtain ⟨hlen', hw'⟩ := List.forall_mem_cons.mp hw.2
      simp only [binaryForm, List.append_assoc] at h
      obtain ⟨hcount, h⟩ := binaryLength_append_inj hlen hlen' h
      obtain ⟨rfl, hrest⟩ := memberForms_inj members others r r' hcount hk ⟨hv.1, hv'⟩ ⟨hw.1, hw'⟩ h
      exact ⟨rfl, hrest⟩
    | _ => exact hk.elim

theorem itemForms_inj : ∀ (items others : List Json) (r r' : Bytes),
    items.length = others.length → ItemsAlike items others →
    Fit (itemNumbers items) (itemLengths items) → Fit (itemNumbers others) (itemLengths others) →
    itemForms items ++ r = itemForms others ++ r' → items = others ∧ r = r'
  | [], [], _, _, _, _, _, _, h => ⟨rfl, h⟩
  | v :: items, w :: others, r, r', hlen, hk, hv, hw, h => by
    obtain ⟨hv, hitems⟩ := hv.append
    obtain ⟨hw, hothers⟩ := hw.append
    simp only [itemForms, List.append_assoc] at h
    obtain ⟨rfl, hrow⟩ := binaryForm_inj v w _ _ hk.1 hv hw h
    obtain ⟨rfl, hrest⟩ := itemForms_inj items others r r' (Nat.succ.inj hlen) hk.2 hitems
      hothers hrow
    exact ⟨rfl, hrest⟩

theorem memberForms_inj : ∀ (members others : List (String × Json)) (r r' : Bytes),
    members.length = others.length → MembersAlike members others →
    Fit (memberNumbers members) (memberLengths members) →
    Fit (memberNumbers others) (memberLengths others) →
    memberForms members ++ r = memberForms others ++ r' → members = others ∧ r = r'
  | [], [], _, _, _, _, _, _, h => ⟨rfl, h⟩
  | (k, v) :: members, (l, w) :: others, r, r', hlen, hk, hv, hw, h => by
    obtain ⟨hkey, hv'⟩ := List.forall_mem_cons.mp hv.2
    obtain ⟨hkey', hw'⟩ := List.forall_mem_cons.mp hw.2
    simp only [memberForms, List.append_assoc] at h
    obtain ⟨rfl, hvalue⟩ := text_append_inj hkey hkey' h
    obtain ⟨hv, hmembers⟩ := Fit.append ⟨hv.1, hv'⟩
    obtain ⟨hw, hothers⟩ := Fit.append ⟨hw.1, hw'⟩
    obtain ⟨rfl, hrow⟩ := binaryForm_inj v w _ _ hk.1 hv hw hvalue
    obtain ⟨rfl, hrest⟩ := memberForms_inj members others r r' (Nat.succ.inj hlen) hk.2 hmembers
      hothers hrow
    exact ⟨rfl, hrest⟩
end

end ConfigTree.Json
