import ConfigTree.Digest.Algorithm
import Mathlib.Algebra.Group.Nat.Defs
import Mathlib.Data.List.Induction
/-!
# Digests of byte strings that arrive in parts

A hasher that took in some parts is in a state that their bytes determine (`Piecewise.after`),
however they were cut: the full pieces were folded, and the last piece waits. What remains is that
each digest function, from such a state on, comes to its one-shot definition. For SHA-256 the folded
blocks are the first ones of the padded message. For BLAKE3 the kept subtrees stand for the chunks
to the left (`Blake3.Stands`); to join them from the smallest to the largest gives the tree over all
chunks, because the left part of a tree holds the largest power of two of chunks that leaves some
for the right.
-/

namespace ConfigTree

namespace Bytes

variable {n : Nat} {data : Bytes}

theorem piecesWithin_of_le (bound : Nat) (h : data.length ≤ n) :
    piecesWithin n bound data = [data] := by
  cases bound with
  | zero => rfl
  | succ bound => rw [piecesWithin, List.drop_eq_nil_of_le h]

theorem piecesWithin_of_lt (bound : Nat) (h : n < data.length) :
    piecesWithin n (bound + 1) data = data.take n :: piecesWithin n bound (data.drop n) := by
  rw [piecesWithin]
  split
  · next hnil =>
    rw [List.drop_eq_nil_iff] at hnil
    omega
  · next hcons => rw [hcons]

/-- The bound on the number of pieces does not show. -/
theorem piecesWithin_eq (hn : 0 < n) {bound bound' : Nat} (h : data.length ≤ bound)
    (h' : data.length ≤ bound') : piecesWithin n bound data = piecesWithin n bound' data := by
  induction bound generalizing data bound' with
  | zero => rw [piecesWithin_of_le 0 (by omega), piecesWithin_of_le bound' (by omega)]
  | succ bound ih =>
    by_cases hle : data.length ≤ n
    · rw [piecesWithin_of_le _ hle, piecesWithin_of_le _ hle]
    · obtain ⟨below, rfl⟩ : ∃ below, bound' = below + 1 := ⟨bound' - 1, by omega⟩
      have hdrop : (data.drop n).length = data.length - n := List.length_drop
      have hrest : piecesWithin n bound (data.drop n) = piecesWithin n below (data.drop n) :=
        ih (by omega) (by omega)
      rw [piecesWithin_of_lt bound (by omega), piecesWithin_of_lt below (by omega), hrest]

theorem pieces_of_le (h : data.length ≤ n) : pieces n data = [data] := piecesWithin_of_le _ h

theorem pieces_of_lt (hn : 0 < n) (h : n < data.length) :
    pieces n data = data.take n :: pieces n (data.drop n) := by
  obtain ⟨bound, hbound⟩ : ∃ bound, data.length = bound + 1 := ⟨data.length - 1, by omega⟩
  have hdrop : (data.drop n).length = data.length - n := List.length_drop
  rw [pieces, hbound, piecesWithin_of_lt bound h, pieces,
    piecesWithin_eq hn (by omega) (Nat.le_refl (data.drop n).length)]

/-- Induction over byte strings from which pieces are cut. -/
@[elab_as_elim]
theorem pieces_induction (hn : 0 < n) {motive : Bytes → Prop}
    (short : ∀ data : Bytes, data.length ≤ n → motive data)
    (long : ∀ data : Bytes, n < data.length → motive (data.drop n) → motive data)
    (data : Bytes) : motive data := by
  induction hlen : data.length using Nat.strongRecOn generalizing data with
  | ind length ih =>
    by_cases hle : data.length ≤ n
    · exact short data hle
    · have hdrop : (data.drop n).length = data.length - n := List.length_drop
      exact long data (by omega) (ih _ (by omega) (data.drop n) rfl)

/-- All pieces but the last one. -/
def fullPieces (n : Nat) (data : Bytes) : List Bytes := (pieces n data).dropLast

def lastPiece (n : Nat) (data : Bytes) : Bytes := (pieces n data).getLastD []

theorem pieces_eq (n : Nat) (data : Bytes) :
    pieces n data = fullPieces n data ++ [lastPiece n data] := by
  have hne := pieces_ne_nil n data
  rw [fullPieces, lastPiece, List.getLastD_eq_getLast?, List.getLast?_eq_some_getLast hne]
  exact (List.dropLast_concat_getLast hne).symm

theorem fullPieces_of_pieces {init : List Bytes} {last : Bytes}
    (h : pieces n data = init ++ [last]) : fullPieces n data = init := by
  rw [fullPieces, h, List.dropLast_concat]

theorem lastPiece_of_pieces {init : List Bytes} {last : Bytes}
    (h : pieces n data = init ++ [last]) : lastPiece n data = last := by
  rw [lastPiece, h, List.getLastD_concat]

theorem fullPieces_of_le (h : data.length ≤ n) : fullPieces n data = [] :=
  fullPieces_of_pieces (pieces_of_le h)

theorem lastPiece_of_le (h : data.length ≤ n) : lastPiece n data = data :=
  lastPiece_of_pieces (show pieces n data = [] ++ [data] from pieces_of_le h)

theorem pieces_of_lt_eq (hn : 0 < n) (h : n < data.length) : pieces n data =
    (data.take n :: fullPieces n (data.drop n)) ++ [lastPiece n (data.drop n)] := by
  rw [pieces_of_lt hn h, pieces_eq n (data.drop n), List.cons_append]

theorem fullPieces_of_lt (hn : 0 < n) (h : n < data.length) :
    fullPieces n data = data.take n :: fullPieces n (data.drop n) :=
  fullPieces_of_pieces (pieces_of_lt_eq hn h)

theorem lastPiece_of_lt (hn : 0 < n) (h : n < data.length) :
    lastPiece n data = lastPiece n (data.drop n) :=
  lastPiece_of_pieces (pieces_of_lt_eq hn h)

/-- More bytes change the last piece only. -/
theorem pieces_append (hn : 0 < n) (data more : Bytes) :
    pieces n (data ++ more) = fullPieces n data ++ pieces n (lastPiece n data ++ more) := by
  induction data using pieces_induction hn with
  | short data h => rw [fullPieces_of_le h, lastPiece_of_le h, List.nil_append]
  | long data h ih =>
    have hlong : n < (data ++ more).length := by
      rw [List.length_append]
      omega
    rw [pieces_of_lt hn hlong, List.take_append_of_le_length (by omega),
      List.drop_append_of_le_length (by omega), ih, fullPieces_of_lt hn h, lastPiece_of_lt hn h,
      List.cons_append]

/-- All pieces but the last one are of full length. -/
theorem length_pieces (hn : 0 < n) (data : Bytes) :
    n * (fullPieces n data).length + (lastPiece n data).length = data.length := by
  induction data using pieces_induction hn with
  | short data h => rw [fullPieces_of_le h, lastPiece_of_le h, List.length_nil, Nat.mul_zero,
      Nat.zero_add]
  | long data h ih =>
    have hdrop : (data.drop n).length = data.length - n := List.length_drop
    rw [fullPieces_of_lt hn h, lastPiece_of_lt hn h, List.length_cons, Nat.mul_succ]
    omega

end Bytes

namespace Piecewise

variable {σ : Type} {n : Nat}

/-- The state after a byte string. -/
def after (n : Nat) (step : σ → Bytes → σ) (start : σ) (data : Bytes) : Piecewise σ :=
  ⟨(Bytes.fullPieces n data).foldl step start, Bytes.lastPiece n data⟩

theorem after_nil (n : Nat) (step : σ → Bytes → σ) (start : σ) :
    after n step start [] = ⟨start, []⟩ := by
  rw [after, Bytes.fullPieces_of_le (Nat.zero_le n), Bytes.lastPiece_of_le (Nat.zero_le n)]
  rfl

theorem absorb_after (hn : 0 < n) (step : σ → Bytes → σ) (start : σ) (data part : Bytes) :
    absorb n step (after n step start data) part = after n step start (data ++ part) := by
  have hcut : Bytes.pieces n (data ++ part) =
      (Bytes.fullPieces n data ++ Bytes.fullPieces n (Bytes.lastPiece n data ++ part)) ++
        [Bytes.lastPiece n (Bytes.lastPiece n data ++ part)] := by
    rw [Bytes.pieces_append hn, Bytes.pieces_eq n (Bytes.lastPiece n data ++ part),
      List.append_assoc]
  rw [after, after, Bytes.fullPieces_of_pieces hcut, Bytes.lastPiece_of_pieces hcut,
    List.foldl_append]
  rfl

/-- The state after parts is the state after their bytes. -/
theorem foldl_absorb (hn : 0 < n) (step : σ → Bytes → σ) (start : σ) (parts : List Bytes) :
    parts.foldl (absorb n step) ⟨start, []⟩ = after n step start parts.flatten := by
  rw [← after_nil n step start]
  suffices h : ∀ data, parts.foldl (absorb n step) (after n step start data) =
      after n step start (data ++ parts.flatten) from h []
  induction parts with
  | nil => exact fun data => by rw [List.flatten_nil, List.append_nil]; rfl
  | cons part rest ih =>
    intro data
    rw [List.foldl_cons, absorb_after hn, ih, List.flatten_cons, List.append_assoc]

end Piecewise

namespace Sha256

theorem foldl_fold (blocks : List Bytes) (p : Progress) :
    blocks.foldl Progress.fold p =
      ⟨p.blocks + blocks.length, blocks.foldl compress p.words⟩ := by
  induction blocks generalizing p with
  | nil => rfl
  | cons block rest ih =>
    rw [List.foldl_cons, ih, Progress.fold, List.length_cons, List.foldl_cons,
      Nat.add_assoc, Nat.add_comm 1]

theorem finish_after (data : Bytes) :
    Hasher.finish (Piecewise.after 64 Progress.fold {} data) = digest data := by
  have hlength := Bytes.length_pieces (n := 64) (by decide) data
  rw [Hasher.finish, Piecewise.after, foldl_fold]
  dsimp only
  rw [Nat.zero_add, hlength, digest, Bytes.pieces_append (by decide) data, List.foldl_append]

end Sha256

namespace Blake3

theorem leftSize_lt {size : Nat} (h : 2 ≤ size) : 0 < leftSize size ∧ leftSize size < size := by
  have hle : 2 ^ (size - 1).log2 ≤ size - 1 := Nat.log2_self_le (by omega)
  refine ⟨Nat.two_pow_pos _, ?_⟩
  change 2 ^ (size - 1).log2 < size
  omega

/-- The left part is a given power of two if the right part is not larger. -/
theorem leftSize_eq {height right : Nat} (hpos : 0 < right) (hle : right ≤ 2 ^ height) :
    leftSize (2 ^ height + right) = 2 ^ height := by
  have hpow : 0 < 2 ^ height := Nat.two_pow_pos height
  have hlog : (2 ^ height + right - 1).log2 = height := by
    rw [Nat.log2_eq_iff (by omega), Nat.pow_succ]
    omega
  change 2 ^ (2 ^ height + right - 1).log2 = 2 ^ height
  rw [hlog]

theorem treeWithin_nil (bound : Nat) : treeWithin bound [] = chunkOutput 0 [] := by
  cases bound <;> rfl

theorem treeWithin_singleton (bound : Nat) (o : Output) : treeWithin bound [o] = o := by
  cases bound <;> rfl

theorem treeWithin_of_two (bound : Nat) {outputs : List Output} (h : 2 ≤ outputs.length) :
    treeWithin (bound + 1) outputs =
      parent (treeWithin bound (outputs.take (leftSize outputs.length))).chain
        (treeWithin bound (outputs.drop (leftSize outputs.length))).chain := by
  match outputs with
  | _ :: _ :: _ => rfl

/-- The bound on the height does not show. -/
theorem treeWithin_eq {bound bound' : Nat} {outputs : List Output}
    (h : outputs.length ≤ bound + 1) (h' : outputs.length ≤ bound' + 1) :
    treeWithin bound outputs = treeWithin bound' outputs := by
  induction bound generalizing bound' outputs with
  | zero =>
    match outputs, h with
    | [], _ => rw [treeWithin_nil, treeWithin_nil]
    | [o], _ => rw [treeWithin_singleton, treeWithin_singleton]
  | succ bound ih =>
    by_cases htwo : 2 ≤ outputs.length
    · obtain ⟨below, rfl⟩ : ∃ below, bound' = below + 1 := ⟨bound' - 1, by omega⟩
      obtain ⟨hpos, hlt⟩ := leftSize_lt htwo
      have hleft : (outputs.take (leftSize outputs.length)).length = leftSize outputs.length :=
        List.length_take_of_le (Nat.le_of_lt hlt)
      have hright : (outputs.drop (leftSize outputs.length)).length =
          outputs.length - leftSize outputs.length := List.length_drop
      have htake : treeWithin bound (outputs.take (leftSize outputs.length)) =
          treeWithin below (outputs.take (leftSize outputs.length)) := ih (by omega) (by omega)
      have hdrop : treeWithin bound (outputs.drop (leftSize outputs.length)) =
          treeWithin below (outputs.drop (leftSize outputs.length)) := ih (by omega) (by omega)
      rw [treeWithin_of_two bound htwo, treeWithin_of_two below htwo, htake, hdrop]
    · match outputs with
      | [] => rw [treeWithin_nil, treeWithin_nil]
      | [o] => rw [treeWithin_singleton, treeWithin_singleton]
      | _ :: _ :: _ => exact absurd (Nat.le_add_left 2 _) htwo

theorem treeWithin_eq_tree {bound : Nat} {outputs : List Output}
    (h : outputs.length ≤ bound + 1) : treeWithin bound outputs = tree outputs :=
  treeWithin_eq h (Nat.le_succ _)

/-- Two chunks or more make a tree of two parts. -/
theorem tree_of_two {outputs : List Output} (h : 2 ≤ outputs.length) :
    tree outputs = parent (tree (outputs.take (leftSize outputs.length))).chain
      (tree (outputs.drop (leftSize outputs.length))).chain := by
  obtain ⟨hpos, hlt⟩ := leftSize_lt h
  have hleft : (outputs.take (leftSize outputs.length)).length = leftSize outputs.length :=
    List.length_take_of_le (Nat.le_of_lt hlt)
  have hright : (outputs.drop (leftSize outputs.length)).length =
      outputs.length - leftSize outputs.length := List.length_drop
  have hbound : outputs.length ≤ outputs.length - 2 + 1 + 1 := by omega
  rw [← treeWithin_eq_tree hbound, treeWithin_of_two _ h, treeWithin_eq_tree (by omega),
    treeWithin_eq_tree (by omega)]

theorem tree_append {height : Nat} {left right : List Output} (hleft : left.length = 2 ^ height)
    (hpos : 0 < right.length) (hle : right.length ≤ 2 ^ height) :
    tree (left ++ right) = parent (tree left).chain (tree right).chain := by
  have hpow : 0 < 2 ^ height := Nat.two_pow_pos height
  have hlength : (left ++ right).length = 2 ^ height + right.length := by
    rw [List.length_append, hleft]
  have hsize : leftSize (left ++ right).length = left.length := by
    rw [hlength, leftSize_eq hpos hle, hleft]
  rw [tree_of_two (by omega), hsize, List.take_left, List.drop_left]

/-- Complete subtrees stand for the outputs to the left, the smallest one for the last of them. -/
inductive Stands : List (Nat × Words8) → List Output → Prop
  | nil : Stands [] []
  | cons {height : Nat} {subtrees : List (Nat × Words8)} {outputs block : List Output}
      (h : Stands subtrees outputs) (hblock : block.length = 2 ^ height)
      (hhigher : ∀ s ∈ subtrees, height < s.1) :
      Stands ((height, (tree block).chain) :: subtrees) (outputs ++ block)

/-- A subtree is added like a bit to a number, with a carry where there is one of its height. -/
theorem Stands.addSubtree {subtrees : List (Nat × Words8)} {outputs block : List Output}
    {height : Nat} (h : Stands subtrees outputs) (hblock : block.length = 2 ^ height)
    (hhigh : ∀ s ∈ subtrees, height ≤ s.1) :
    Stands (addSubtree height (tree block).chain subtrees) (outputs ++ block) := by
  induction h generalizing height block with
  | nil => exact .cons .nil hblock fun _ hs => nomatch hs
  | @cons height' rest outputs left h hleft hhigher ih =>
    rw [Blake3.addSubtree]
    split
    · next heq =>
      cases heq
      have hpow : 0 < 2 ^ height' := Nat.two_pow_pos height'
      rw [← tree_append hleft (by omega) (by omega), List.append_assoc]
      refine ih ?_ hhigher
      rw [List.length_append, hleft, hblock, Nat.pow_succ]
      omega
    · next hne =>
      have hlt : height < height' :=
        Nat.lt_of_le_of_ne (hhigh _ List.mem_cons_self) (Ne.symm hne)
      refine .cons (.cons h hleft hhigher) hblock fun s hs => ?_
      rcases List.mem_cons.mp hs with rfl | hs
      · exact hlt
      · exact Nat.lt_trans hlt (hhigher s hs)

/-- Joined from the smallest to the largest, the subtrees make the tree over all outputs. -/
theorem Stands.join {subtrees : List (Nat × Words8)} {outputs last : List Output}
    (h : Stands subtrees outputs) (hpos : 0 < last.length)
    (hfits : ∀ s ∈ subtrees, last.length ≤ 2 ^ s.1) :
    subtrees.foldl (fun right left => parent left.2 right.chain) (tree last) =
      tree (outputs ++ last) := by
  induction h generalizing last with
  | nil => rfl
  | @cons height rest outputs block h hblock hhigher ih =>
    have hle : last.length ≤ 2 ^ height := hfits _ List.mem_cons_self
    rw [List.foldl_cons, ← tree_append hblock hpos hle, List.append_assoc]
    refine ih ?_ fun s hs => ?_
    · rw [List.length_append]
      omega
    · have hpow : 2 ^ (height + 1) ≤ 2 ^ s.1 :=
        Nat.pow_le_pow_right (by decide) (hhigher s hs)
      rw [List.length_append, hblock]
      rw [Nat.pow_succ] at hpow
      omega

/-- What was kept of the chunks that were folded. -/
structure Progress.Keeps (p : Progress) (chunks : List Bytes) : Prop where
  count : p.chunks = chunks.length
  stands : Stands p.subtrees (chunks.mapIdx chunkOutput)

theorem Progress.Keeps.fold {p : Progress} {chunks : List Bytes} (h : p.Keeps chunks)
    (chunk : Bytes) : (p.fold chunk).Keeps (chunks ++ [chunk]) where
  count := by
    rw [Progress.fold, h.count, List.length_append]
    rfl
  stands := by
    have hone : [chunkOutput chunks.length chunk].length = 2 ^ 0 := rfl
    rw [Progress.fold, List.mapIdx_concat, h.count]
    exact h.stands.addSubtree hone fun _ _ => Nat.zero_le _

theorem keeps_foldl (chunks : List Bytes) : (chunks.foldl Progress.fold {}).Keeps chunks := by
  induction chunks using List.reverseRecOn with
  | nil => exact ⟨rfl, .nil⟩
  | append_singleton chunks chunk ih =>
    rw [List.foldl_append]
    exact ih.fold chunk

theorem finish_after (data : Bytes) :
    Hasher.finish (Piecewise.after 1024 Progress.fold {} data) = digest data := by
  have hkept := keeps_foldl (Bytes.fullPieces 1024 data)
  have hone : 0 < [chunkOutput (Bytes.fullPieces 1024 data).length
      (Bytes.lastPiece 1024 data)].length := Nat.one_pos
  have hjoin := hkept.stands.join hone fun s _ => Nat.one_le_two_pow
  rw [Hasher.finish, Piecewise.after, hkept.count, digest, chunkOutputs, Bytes.pieces_eq,
    List.mapIdx_concat, ← hjoin]
  rfl

end Blake3

namespace Hasher

/-- The hasher that took in a byte string. -/
def after : Algorithm → Bytes → Hasher
  | .blake3, data => .blake3 (Piecewise.after 1024 Blake3.Progress.fold {} data)
  | .sha256, data => .sha256 (Piecewise.after 64 Sha256.Progress.fold {} data)

theorem foldl_absorb_new (a : Algorithm) (parts : List Bytes) :
    parts.foldl absorb (new a) = after a parts.flatten := by
  cases a with
  | blake3 =>
    have hstate := Piecewise.foldl_absorb (by decide : 0 < 1024) Blake3.Progress.fold {} parts
    rw [after, ← hstate]
    exact List.foldl_hom Hasher.blake3 (fun _ _ => rfl)
  | sha256 =>
    have hstate := Piecewise.foldl_absorb (by decide : 0 < 64) Sha256.Progress.fold {} parts
    rw [after, ← hstate]
    exact List.foldl_hom Hasher.sha256 (fun _ _ => rfl)

theorem finish_after (a : Algorithm) (data : Bytes) : (after a data).finish = a.digest data := by
  cases a with
  | blake3 => exact Blake3.finish_after data
  | sha256 => exact Sha256.finish_after data

end Hasher

namespace Algorithm

/-- The hash of parts is the hash of their bytes. -/
theorem digestParts_eq (a : Algorithm) (parts : List Bytes) :
    a.digestParts parts = a.digest parts.flatten := by
  rw [digestParts, Hasher.foldl_absorb_new, Hasher.finish_after]

/-- Where a byte string is cut does not matter: a hasher that takes in the parts ends with the
digest of their bytes, and parts with the same bytes bring it into the same state. -/
theorem digest_of_parts (a : Algorithm) (parts : List Bytes) :
    a.digestParts parts = a.digest parts.flatten ∧
    (parts.foldl Hasher.absorb (Hasher.new a)).finish = a.digest parts.flatten ∧
    a.digestParts [parts.flatten] = a.digest parts.flatten ∧
    ∀ others : List Bytes, others.flatten = parts.flatten →
      others.foldl Hasher.absorb (Hasher.new a) = parts.foldl Hasher.absorb (Hasher.new a) ∧
      a.digestParts others = a.digestParts parts := by
  have hparts := a.digestParts_eq parts
  refine ⟨hparts, hparts, ?_, fun others hsame => ⟨?_, ?_⟩⟩
  · rw [a.digestParts_eq, List.flatten_singleton]
  · rw [Hasher.foldl_absorb_new, Hasher.foldl_absorb_new, hsame]
  · rw [hparts, a.digestParts_eq, hsame]

/-- Cut in the middle of a block, at the end of a chunk, and with nothing in between. -/
theorem digest_of_parts_across_chunks :
    let whole : List Bytes := [List.replicate 2049 7]
    let cut : List Bytes := [List.replicate 100 7, [], List.replicate 924 7, List.replicate 1025 7]
    cut.flatten = whole.flatten ∧
      Algorithm.blake3.digestParts cut = Algorithm.blake3.digestParts whole ∧
      Algorithm.sha256.digestParts cut = Algorithm.sha256.digestParts whole := by
  intro whole cut
  have hsame : cut.flatten = whole.flatten := by decide +kernel
  obtain ⟨-, -, -, hblake3⟩ := Algorithm.blake3.digest_of_parts whole
  obtain ⟨-, -, -, hsha256⟩ := Algorithm.sha256.digest_of_parts whole
  exact ⟨hsame, (hblake3 cut hsame).2, (hsha256 cut hsame).2⟩

end Algorithm

end ConfigTree
