import Gavea.IntervalTree.NodeAcceptEdit
import Mathlib.Data.List.Perm.Basic

namespace Gavea.IntervalTree

open List

/-- A node of the tree without its links; the colour and the visited bit of the metadata are left
to the walks. -/
structure Decoration where
  id : String
  ownerId : Nat
  node : IntervalNode

namespace Decoration

def delta (offset : Int) (x : Decoration) : Decoration := { x with node := x.node.delta offset }

theorem delta_delta (a b : Int) (x : Decoration) : (x.delta a).delta b = x.delta (a + b) := by
  simp only [delta, IntervalNode.delta, add_assoc]

theorem delta_zero (x : Decoration) : x.delta 0 = x := by
  simp only [delta, IntervalNode.delta, add_zero]

/-- The filters of `intervalSearch`. -/
def included (filterOwnerId : Nat) (filterOutValidation filterFontDecorations
    onlyMarginDecorations : Bool) (x : Decoration) : Bool :=
  !(filterOwnerId != 0 && x.ownerId != 0 && x.ownerId != filterOwnerId) &&
    !(filterOutValidation && (x.node.metadata &&& 4) >>> 2 == 1) &&
    !(filterFontDecorations && (x.node.metadata &&& 128) >>> 7 == 1) &&
    !(onlyMarginDecorations && (x.node.metadata &&& 64) >>> 6 != 1)

def touches (start stop : Int) (x : Decoration) : Bool := x.node.start ≤ stop && start ≤ x.node.stop

end Decoration

def intervalCompare (aStart aEnd bStart bEnd : Int) : Int := if aStart = bStart then aEnd - bEnd else aStart - bStart

inductive Tree
  | sentinel
  | node (left : Tree) (z : Decoration) (delta maxEnd : Int) (right : Tree)

namespace Tree

def computeMaxEnd (left : Tree) (z : Decoration) (delta : Int) (right : Tree) : Int :=
  let maxEnd := match left with
    | sentinel => z.node.stop
    | node _ _ _ leftMaxEnd _ => max z.node.stop leftMaxEnd
  match right with
  | sentinel => maxEnd
  | node _ _ _ rightMaxEnd _ => max maxEnd (rightMaxEnd + delta)

def recomputeMaxEnd (left : Tree) (z : Decoration) (delta : Int) (right : Tree) :
    Tree :=
  node left z delta (computeMaxEnd left z delta right) right

/-- The walk of `searchForEditing` and `intervalSearch`, which enters a subtree at most once. -/
def overlaps (included : Decoration → Bool) (start stop : Int) : Tree → Int → List Decoration
  | sentinel, _ => []
  | node l z d maxEnd r, delta =>
    if delta + maxEnd < start then []
    else if delta + z.node.start > stop then overlaps included start stop l delta
    else overlaps included start stop l delta ++
      (if delta + z.node.stop ≥ start && included (z.delta delta) then [z.delta delta] else []) ++
      overlaps included start stop r (delta + d)

def searchForEditing (t : Tree) (start stop : Int) : List Decoration := overlaps (fun _ => true) start stop t 0

def intervalSearch (t : Tree) (start stop : Int) (filterOwnerId : Nat) (filterOutValidation
    filterFontDecorations onlyMarginDecorations : Bool) : List Decoration :=
  overlaps (Decoration.included filterOwnerId filterOutValidation filterFontDecorations
    onlyMarginDecorations) start stop t 0

def noOverlapReplace (start stop textLength : Int) : Tree → Int → Tree
  | sentinel, _ => sentinel
  | node l z d maxEnd r, delta =>
    let editDelta := textLength - (stop - start)
    if delta + maxEnd < start then recomputeMaxEnd l z d r
    else if delta + z.node.start > stop then
      recomputeMaxEnd (noOverlapReplace start stop textLength l delta) (z.delta editDelta) (d + editDelta) r
    else recomputeMaxEnd (noOverlapReplace start stop textLength l delta) z d
      (noOverlapReplace start stop textLength r (delta + d))

def treeInsert (z : Decoration) (zDelta : Int) : Tree → Int → Tree
  | sentinel, delta => node sentinel (z.delta (-delta)) zDelta (z.node.stop - delta) sentinel
  | node l x d _ r, delta =>
    if intervalCompare z.node.start z.node.stop (x.node.start + delta) (x.node.stop + delta) < 0 then
      recomputeMaxEnd (treeInsert z zDelta l delta) x d r
    else recomputeMaxEnd l x d (treeInsert z zDelta r (delta + d))

def leftRotate : Tree → Tree
  | node a x d _ (node b y d' _ c) => recomputeMaxEnd (recomputeMaxEnd a x d b) (y.delta d) (d' + d) c
  | t => t

def rightRotate : Tree → Tree
  | node (node a x d _ b) y d' _ c => recomputeMaxEnd a x d (recomputeMaxEnd b (y.delta (-d)) (d' - d) c)
  | t => t

def normalizeDelta : Tree → Int → Tree
  | sentinel, _ => sentinel
  | node l z d _ r, delta => recomputeMaxEnd (normalizeDelta l delta) (z.delta delta) 0 (normalizeDelta r (delta + d))

/-- A rotation somewhere in the tree; the nodes above it keep their `maxEnd`. -/
inductive Rotates : Tree → Tree → Prop
  | leftRotate (t) : Rotates t t.leftRotate
  | rightRotate (t) : Rotates t t.rightRotate
  | left {l l'} (z d maxEnd r) (h : Rotates l l') : Rotates (node l z d maxEnd r) (node l' z d maxEnd r)
  | right {r r'} (l z d maxEnd) (h : Rotates r r') : Rotates (node l z d maxEnd r) (node l z d maxEnd r')

/-- Whatever rotations the colours ask for, and the normalization of deltas that may follow. -/
inductive Repairs : Tree → Tree → Prop
  | refl (t) : Repairs t t
  | rotate {t t' t''} (h : Repairs t t') (hrotate : Rotates t' t'') : Repairs t t''
  | normalizeDelta {t t'} (h : Repairs t t') : Repairs t (t'.normalizeDelta 0)

/-- `rbTreeInsert` of one node after the other, whatever deltas they bring along. -/
def InsertAll : List Decoration → Tree → Tree → Prop
  | [], t, t' => t = t'
  | z :: zs, t, t' => ∃ zDelta t1, Repairs (t.treeInsert z zDelta 0) t1 ∧ InsertAll zs t1 t'

/-- The decorations from left to right, at their absolute offsets. -/
def decorations : Tree → Int → List Decoration
  | sentinel, _ => []
  | node l z d _ r, delta => decorations l delta ++ z.delta delta :: decorations r (delta + d)

def Before (x y : Decoration) : Prop := intervalCompare x.node.start x.node.stop y.node.start y.node.stop ≤ 0

def MaxEnds : Tree → Prop
  | sentinel => True
  | node l z d maxEnd r => MaxEnds l ∧ MaxEnds r ∧ ∀ x ∈ (node l z d maxEnd r).decorations 0, x.node.stop ≤ maxEnd

structure WellFormed (t : Tree) : Prop where
  maxEnds : t.MaxEnds
  sorted : (t.decorations 0).Pairwise Before

variable {t t' l r : Tree} {x y z : Decoration} {front back : List Decoration}
  {a b d start stop textLength maxEnd : Int}

theorem before_iff : Before x y ↔ x.node.start < y.node.start ∨
    x.node.start = y.node.start ∧ x.node.stop ≤ y.node.stop := by
  rw [Before, intervalCompare]
  split_ifs <;> omega

theorem Before.trans (h : Before x y) (h' : Before y z) : Before x z := by
  rw [before_iff] at *
  omega

theorem decorations_add (t : Tree) (a b : Int) :
    t.decorations (a + b) = (t.decorations a).map (Decoration.delta b) := by
  induction t generalizing a with
  | sentinel => rfl
  | node l z d maxEnd r ihl ihr =>
    rw [decorations, decorations, map_append, map_cons, ihl, add_right_comm, ihr, Decoration.delta_delta]

theorem MaxEnds.le (h : (node l z d maxEnd r).MaxEnds) (b : Int) :
    ∀ x ∈ (node l z d maxEnd r).decorations b, x.node.stop ≤ b + maxEnd := by
  rw [← zero_add b, decorations_add, zero_add]
  intro y hy
  obtain ⟨x, hx, rfl⟩ := mem_map.mp hy
  exact (Int.add_le_add_right (h.2.2 x hx) b).trans_eq (add_comm maxEnd b)

theorem recomputeMaxEnd_maxEnds (hl : l.MaxEnds) (hr : r.MaxEnds) (z : Decoration) (d : Int) :
    (recomputeMaxEnd l z d r).MaxEnds := by
  refine ⟨hl, hr, fun x hx => ?_⟩
  rw [decorations, Decoration.delta_zero, zero_add] at hx
  have hleft (hx : x ∈ l.decorations 0) : x.node.stop ≤ computeMaxEnd l z d sentinel := by
    cases l with
    | sentinel => exact nomatch hx
    | node => exact (hl.2.2 x hx).trans (le_max_right ..)
  have hself : z.node.stop ≤ computeMaxEnd l z d sentinel := by
    cases l with
    | sentinel => exact le_rfl
    | node => exact le_max_left ..
  cases r with
  | sentinel =>
    rcases mem_append.mp hx with hx | hx
    · exact hleft hx
    · exact mem_singleton.mp hx ▸ hself
  | node =>
    rcases mem_append.mp hx with hx | hx
    · exact (hleft hx).trans (le_max_left ..)
    · rcases mem_cons.mp hx with rfl | hx
      · exact hself.trans (le_max_left ..)
      · exact (hr.le d x hx).trans ((add_comm d _).trans_le (le_max_right ..))

theorem overlaps_eq (included : Decoration → Bool) (ht : t.MaxEnds) (b : Int)
    (hsorted : (t.decorations b).Pairwise Before) : overlaps included start stop t b =
      (t.decorations b).filter fun x => x.touches start stop && included x := by
  induction t generalizing b with
  | sentinel => rfl
  | node l z d maxEnd r ihl ihr =>
    have hmax := ht.le b
    rw [decorations] at hsorted hmax ⊢
    obtain ⟨hl, hr, hlr⟩ := pairwise_append.mp hsorted
    obtain ⟨hz, hr⟩ := pairwise_cons.mp hr
    have ihl := ihl ht.1 b hl
    have ihr := ihr ht.2.1 (b + d) hr
    have htouches (hstart : ¬b + z.node.start > stop) :
        (decide (b + z.node.stop ≥ start) && included (z.delta b)) =
          ((z.delta b).touches start stop && included (z.delta b)) := by
      have hle : z.node.start + b ≤ stop := by omega
      rw [Decoration.touches, Decoration.delta, IntervalNode.delta]
      simp only [hle, decide_true, Bool.true_and, add_comm b, ge_iff_le]
    rw [overlaps]
    -- The search skips a subtree that ends before `start` and, past `stop`, the right child.
    split_ifs with hend hstart hhit
    · refine (filter_eq_nil_iff.mpr fun x hx hkeep => ?_).symm
      have := hmax x hx
      simp [Decoration.touches] at hkeep
      omega
    · have hback : (z.delta b :: r.decorations (b + d)).filter
          (fun x => x.touches start stop && included x) = [] := by
        refine filter_eq_nil_iff.mpr fun x hx hkeep => ?_
        have hle : (z.delta b).node.start ≤ x.node.start := by
          rcases mem_cons.mp hx with rfl | hx
          · exact le_rfl
          · have := before_iff.mp (hz x hx)
            omega
        simp [Decoration.touches, Decoration.delta, IntervalNode.delta] at hkeep hle
        omega
      rw [ihl, filter_append, hback, append_nil]
    · rw [ihl, ihr, filter_append, filter_cons, if_pos (htouches hstart ▸ hhit), append_assoc]
      rfl
    · rw [ihl, ihr, filter_append, filter_cons, if_neg (htouches hstart ▸ hhit), append_nil]

theorem noOverlapReplace_maxEnds (ht : t.MaxEnds) (b : Int) :
    (noOverlapReplace start stop textLength t b).MaxEnds := by
  induction t generalizing b with
  | sentinel => trivial
  | node l z d maxEnd r ihl ihr =>
    rw [noOverlapReplace]
    split_ifs
    · exact recomputeMaxEnd_maxEnds ht.1 ht.2.1 z d
    · exact recomputeMaxEnd_maxEnds (ihl ht.1 b) ht.2.1 _ _
    · exact recomputeMaxEnd_maxEnds (ihl ht.1 b) (ihr ht.2.1 _) z d

/-- What becomes of a decoration in the walk of `noOverlapReplace`. -/
def moveBehind (stop editDelta : Int) (x : Decoration) : Decoration :=
  if x.node.start > stop then x.delta editDelta else x

theorem noOverlapReplace_decorations (textLength : Int) (ht : t.MaxEnds) (b : Int)
    (hsorted : (t.decorations b).Pairwise Before)
    (hle : start ≤ stop)
    (hordered : ∀ x ∈ t.decorations b, x.node.start ≤ x.node.stop) :
    (noOverlapReplace start stop textLength t b).decorations b =
      (t.decorations b).map (moveBehind stop (textLength - (stop - start))) := by
  induction t generalizing b with
  | sentinel => rfl
  | node l z d maxEnd r ihl ihr =>
    have hmax := ht.le b
    rw [decorations] at hsorted hordered hmax
    obtain ⟨hl, hr, -⟩ := pairwise_append.mp hsorted
    obtain ⟨hz, hr⟩ := pairwise_cons.mp hr
    have ihl := ihl ht.1 b hl fun x h => hordered x (mem_append_left _ h)
    have ihr := ihr ht.2.1 (b + d) hr fun x h => hordered x (mem_append_right _ (mem_cons_of_mem _ h))
    have hzStart : (z.delta b).node.start = b + z.node.start := add_comm ..
    rw [noOverlapReplace]
    split_ifs with hend hstart
    · rw [recomputeMaxEnd, decorations, decorations]
      refine (map_id _).symm.trans (map_congr_left fun x hx => (if_neg ?_).symm)
      have := hmax x hx
      have := hordered x hx
      omega
    · have hback : (r.decorations (b + d)).map (moveBehind stop (textLength - (stop - start))) =
          r.decorations (b + (d + (textLength - (stop - start)))) := by
        rw [← add_assoc, decorations_add r (b + d)]
        refine map_congr_left fun x hx => if_pos ?_
        have := before_iff.mp (hz x hx)
        omega
      rw [recomputeMaxEnd, decorations, ihl, ← hback, decorations, map_append, map_cons, moveBehind, if_pos (by omega),
        Decoration.delta_delta, Decoration.delta_delta, add_comm (textLength - (stop - start)) b]
    · rw [recomputeMaxEnd, decorations, ihl, ihr, decorations, map_append, map_cons, moveBehind, if_neg (by omega)]

theorem Rotates.decorations (h : Rotates t t') (b : Int) : t'.decorations b = t.decorations b := by
  induction h generalizing b with
  | leftRotate t | rightRotate t =>
    simp only [Tree.leftRotate, Tree.rightRotate]
    split
    · simp only [recomputeMaxEnd, Tree.decorations, Decoration.delta_delta, append_assoc, cons_append]
      grind
    · rfl
  | left _ _ _ _ _ ih | right _ _ _ _ _ ih => rw [Tree.decorations, ih, Tree.decorations]

theorem Rotates.maxEnds (h : Rotates t t') (ht : t.MaxEnds) : t'.MaxEnds := by
  induction h with
  | leftRotate t =>
    unfold Tree.leftRotate
    split
    · exact recomputeMaxEnd_maxEnds (recomputeMaxEnd_maxEnds ht.1 ht.2.1.1 _ _) ht.2.1.2.1 _ _
    · exact ht
  | rightRotate t =>
    unfold Tree.rightRotate
    split
    · exact recomputeMaxEnd_maxEnds ht.1.1 (recomputeMaxEnd_maxEnds ht.1.2.1 ht.2.1 _ _) _ _
    · exact ht
  | left z d maxEnd r h ih => exact ⟨ih ht.1, ht.2.1, by rw [Tree.decorations, h.decorations]; exact ht.2.2⟩
  | right l z d maxEnd h ih => exact ⟨ht.1, ih ht.2.1, by rw [Tree.decorations, h.decorations]; exact ht.2.2⟩

theorem normalizeDelta_decorations (t : Tree) (b : Int) :
    (t.normalizeDelta b).decorations 0 = t.decorations b := by
  induction t generalizing b with
  | sentinel => rfl
  | node l z d maxEnd r ihl ihr =>
    rw [normalizeDelta, recomputeMaxEnd, decorations, ihl, zero_add, ihr, Decoration.delta_zero, decorations]

theorem normalizeDelta_maxEnds (ht : t.MaxEnds) (b : Int) : (t.normalizeDelta b).MaxEnds := by
  induction t generalizing b with
  | sentinel => trivial
  | node l z d maxEnd r ihl ihr => exact recomputeMaxEnd_maxEnds (ihl ht.1 b) (ihr ht.2.1 _) _ _

theorem Repairs.wellFormed (h : Repairs t t') (ht : t.WellFormed) :
    t'.WellFormed ∧ t'.decorations 0 = t.decorations 0 := by
  induction h with
  | refl => exact ⟨ht, rfl⟩
  | rotate _ h ih =>
    obtain ⟨hwf, heq⟩ := ih
    exact ⟨⟨h.maxEnds hwf.maxEnds, h.decorations 0 ▸ hwf.sorted⟩, (h.decorations 0).trans heq⟩
  | @normalizeDelta t' _ ih =>
    obtain ⟨hwf, heq⟩ := ih
    have hsame := normalizeDelta_decorations t' 0
    exact ⟨⟨normalizeDelta_maxEnds hwf.maxEnds 0, hsame ▸ hwf.sorted⟩, hsame.trans heq⟩

theorem treeInsert_maxEnds (ht : t.MaxEnds) (z : Decoration) (zDelta b : Int) :
    (t.treeInsert z zDelta b).MaxEnds := by
  induction t generalizing b with
  | sentinel =>
    refine ⟨trivial, trivial, fun x hx => ?_⟩
    rw [mem_singleton.mp hx, Decoration.delta_delta, add_zero]
    exact le_rfl
  | node l x d maxEnd r ihl ihr =>
    rw [treeInsert]
    split_ifs
    · exact recomputeMaxEnd_maxEnds (ihl ht.1 b) ht.2.1 x d
    · exact recomputeMaxEnd_maxEnds ht.1 (ihr ht.2.1 _) x d

theorem treeInsert_decorations (z : Decoration) (zDelta b : Int)
    (hsorted : (t.decorations b).Pairwise Before) :
    ∃ front back, t.decorations b = front ++ back ∧
      (t.treeInsert z zDelta b).decorations b = front ++ z :: back ∧
      (∀ x ∈ front, Before x z) ∧ ∀ x ∈ back, Before z x := by
  induction t generalizing b with
  | sentinel =>
    refine ⟨[], [], rfl, ?_, by simp, by simp⟩
    rw [treeInsert, decorations, decorations, Decoration.delta_delta, neg_add_cancel, Decoration.delta_zero]
    rfl
  | node l x d maxEnd r ihl ihr =>
    rw [decorations] at hsorted ⊢
    obtain ⟨hl, hr, hlr⟩ := pairwise_append.mp hsorted
    obtain ⟨hx, hr⟩ := pairwise_cons.mp hr
    rw [treeInsert]
    split_ifs with hcompare
    · obtain ⟨front, back, heq, hinsert, hfront, hback⟩ := ihl b hl
      have hzx : Before z (x.delta b) := Int.le_of_lt hcompare
      refine ⟨front, back ++ x.delta b :: r.decorations (b + d), by rw [heq, append_assoc], ?_, hfront,
        fun y hy => ?_⟩
      · rw [recomputeMaxEnd, decorations, hinsert, append_assoc, cons_append]
      · rcases mem_append.mp hy with hy | hy
        · exact hback y hy
        · rcases mem_cons.mp hy with rfl | hy
          · exact hzx
          · exact hzx.trans (hx y hy)
    · obtain ⟨front, back, heq, hinsert, hfront, hback⟩ := ihr (b + d) hr
      have hxz : Before (x.delta b) z := by
        have hcompare := hcompare
        rw [intervalCompare] at hcompare
        rw [before_iff]
        simp only [Decoration.delta, IntervalNode.delta]
        split_ifs at hcompare <;> omega
      refine ⟨l.decorations b ++ x.delta b :: front, back, by rw [heq]; simp, ?_, fun y hy => ?_, hback⟩
      · rw [recomputeMaxEnd, decorations, hinsert, append_assoc, cons_append]
      · rcases mem_append.mp hy with hy | hy
        · exact (hlr y hy _ mem_cons_self).trans hxz
        · rcases mem_cons.mp hy with rfl | hy
          · exact hxz
          · exact hfront y hy

theorem treeInsert_wellFormed (ht : t.WellFormed) (z : Decoration) (zDelta : Int) :
    (t.treeInsert z zDelta 0).WellFormed ∧
      (t.treeInsert z zDelta 0).decorations 0 ~ z :: t.decorations 0 := by
  obtain ⟨front, back, heq, hinsert, hfront, hback⟩ := treeInsert_decorations z zDelta 0 ht.sorted
  have hsorted := ht.sorted
  rw [heq] at hsorted ⊢
  obtain ⟨hf, hb, hfb⟩ := pairwise_append.mp hsorted
  rw [hinsert]
  refine ⟨⟨treeInsert_maxEnds ht.maxEnds z zDelta 0, ?_⟩, perm_middle⟩
  rw [hinsert]
  refine pairwise_append.mpr ⟨hf, pairwise_cons.mpr ⟨hback, hb⟩, fun x hx y hy => ?_⟩
  rcases mem_cons.mp hy with rfl | hy
  · exact hfront x hx
  · exact hfb x hx y hy

theorem InsertAll.wellFormed {zs : List Decoration} (h : InsertAll zs t t') (ht : t.WellFormed) :
    t'.WellFormed ∧ t'.decorations 0 ~ t.decorations 0 ++ zs := by
  induction zs generalizing t with
  | nil =>
    obtain rfl : t = t' := h
    exact ⟨ht, by rw [append_nil]⟩
  | cons z zs ih =>
    obtain ⟨zDelta, t1, hrepairs, hrest⟩ := h
    obtain ⟨hwf, hperm⟩ := treeInsert_wellFormed ht z zDelta
    obtain ⟨hwf1, heq⟩ := hrepairs.wellFormed hwf
    obtain ⟨hwf', hperm'⟩ := ih hrest hwf1
    refine ⟨hwf', hperm'.trans ?_⟩
    rw [heq]
    exact (hperm.append_right zs).trans perm_middle.symm

/-- Whatever is inserted one by one into an empty tree, and however the tree is repaired in between,
a search finds exactly what touches the range, each in its place. -/
theorem insertAll_search {zs : List Decoration} (h : InsertAll zs sentinel t) (start stop : Int)
    (filterOwnerId : Nat) (filterOutValidation filterFontDecorations onlyMarginDecorations : Bool) :
    t.intervalSearch start stop filterOwnerId filterOutValidation filterFontDecorations
        onlyMarginDecorations ~ (zs.filter fun x => x.touches start stop && x.included filterOwnerId
          filterOutValidation filterFontDecorations onlyMarginDecorations) ∧
      (t.intervalSearch start stop filterOwnerId filterOutValidation filterFontDecorations
        onlyMarginDecorations).Pairwise Before := by
  obtain ⟨hwf, hperm⟩ := h.wellFormed ⟨trivial, .nil⟩
  rw [intervalSearch, overlaps_eq _ hwf.maxEnds 0 hwf.sorted]
  exact ⟨hperm.filter _, hwf.sorted.sublist filter_sublist⟩

theorem insertAll_search_rotated : ∃ t, InsertAll [⟨"b", 0, ⟨0, 5, 6⟩⟩, ⟨"a", 0, ⟨0, 1, 9⟩⟩] sentinel t ∧
    t.intervalSearch 7 8 0 false false false = [⟨"a", 0, ⟨0, 1, 9⟩⟩] := by
  have hrun : ∃ t, InsertAll [⟨"b", 0, ⟨0, 5, 6⟩⟩, ⟨"a", 0, ⟨0, 1, 9⟩⟩] sentinel t :=
    ⟨_, 3, _, .refl _, 2, _, .normalizeDelta (.rotate (.refl _) (.rightRotate _)), rfl⟩
  obtain ⟨t, ht⟩ := hrun
  exact ⟨t, ht, perm_singleton.mp (insertAll_search ht 7 8 0 false false false).1⟩

end Tree

/-- One call of `acceptReplace`. -/
structure Replacement where
  offset : Int
  length : Int
  textLength : Int
  forceMoveMarkers : Bool

namespace Replacement

def edit (e : Replacement) (x : Decoration) : Decoration :=
  { x with node := nodeAcceptEdit x.node e.offset (e.offset + e.length) e.textLength e.forceMoveMarkers }

/-- `rest` stands for what the deletion of the nodes of interest leaves. -/
def AcceptReplace (e : Replacement) (t t' : Tree) : Prop :=
  ∃ rest : Tree, rest.WellFormed ∧
    rest.decorations 0 ++ t.searchForEditing e.offset (e.offset + e.length) ~ t.decorations 0 ∧
    Tree.InsertAll ((t.searchForEditing e.offset (e.offset + e.length)).map e.edit)
      (rest.noOverlapReplace e.offset (e.offset + e.length) e.textLength 0) t'

def FitsIn (length : Int) (e : Replacement) : Prop :=
  0 ≤ e.offset ∧ 0 ≤ e.length ∧ e.offset + e.length ≤ length ∧ 0 ≤ e.textLength

def lengthAfter (length : Int) (e : Replacement) : Int := length + (e.textLength - e.length)

/-- The edits lie one by one inside the document that they have come to. -/
def Fit : Int → List Replacement → Prop
  | _, [] => True
  | length, e :: es => e.FitsIn length ∧ Fit (lengthAfter length e) es

def AcceptAll : List Replacement → Tree → Tree → Prop
  | [], t, t' => t = t'
  | e :: es, t, t' => ∃ t1, e.AcceptReplace t t1 ∧ AcceptAll es t1 t'

variable {e : Replacement} {t t' : Tree} {length : Int} {x : Decoration}

theorem edit_within (hx : x.node.Within length) (hfits : e.FitsIn length) :
    (e.edit x).node.Within (lengthAfter length e) := by
  have hwithin := (nodeAcceptEdit_placed e.forceMoveMarkers hx hfits.1
    (Int.le_add_of_nonneg_right hfits.2.1) hfits.2.2.1 hfits.2.2.2).1
  rwa [add_sub_cancel_left] at hwithin

theorem moveBehind_edit (hx : x.node.Within length) (hfits : e.FitsIn length)
    (htouch : x.touches e.offset (e.offset + e.length) = false) :
    Tree.moveBehind (e.offset + e.length) (e.textLength - (e.offset + e.length - e.offset)) x = e.edit x := by
  obtain ⟨-, hbefore, hbehind⟩ := nodeAcceptEdit_placed e.forceMoveMarkers hx hfits.1
    (Int.le_add_of_nonneg_right hfits.2.1) hfits.2.2.1 hfits.2.2.2
  rw [Tree.moveBehind, edit]
  split_ifs with hgt
  · rw [hbehind hgt, Decoration.delta]
  · have hstop : x.node.stop < e.offset := by
      simp [Decoration.touches] at htouch
      omega
    rw [hbefore hstop]

theorem moveBehind_before {y : Decoration} {start stop editDelta : Int} (h : Tree.Before x y)
    (hx : x.node.start ≤ x.node.stop) (hxt : x.touches start stop = false)
    (hdelta : start ≤ stop + editDelta) :
    Tree.Before (Tree.moveBehind stop editDelta x) (Tree.moveBehind stop editDelta y) := by
  simp [Decoration.touches] at hxt
  rw [Tree.before_iff] at h ⊢
  simp only [Tree.moveBehind, Decoration.delta, IntervalNode.delta]
  grind

theorem AcceptReplace.wellFormed (h : e.AcceptReplace t t') (ht : t.WellFormed)
    (hwithin : ∀ x ∈ t.decorations 0, x.node.Within length) (hfits : e.FitsIn length) :
    t'.WellFormed ∧ t'.decorations 0 ~ (t.decorations 0).map e.edit := by
  obtain ⟨rest, hrest, hperm, hinsert⟩ := h
  have hstop : e.offset ≤ e.offset + e.length := Int.le_add_of_nonneg_right hfits.2.1
  have hsearch : t.searchForEditing e.offset (e.offset + e.length) =
      (t.decorations 0).filter (Decoration.touches e.offset (e.offset + e.length)) := by
    rw [Tree.searchForEditing, Tree.overlaps_eq _ ht.maxEnds 0 ht.sorted]
    simp only [Bool.and_true]
  have hapart : rest.decorations 0 ~
      (t.decorations 0).filter fun x => !x.touches e.offset (e.offset + e.length) := by
    rw [hsearch] at hperm
    exact (perm_append_right_iff _).mp (hperm.trans ((filter_append_perm _ _).symm.trans perm_append_comm))
  have happly : ∀ x ∈ rest.decorations 0, x.node.Within length ∧
      x.touches e.offset (e.offset + e.length) = false := by
    intro x hx
    obtain ⟨hmem, htouch⟩ := mem_filter.mp (hapart.mem_iff.mp hx)
    exact ⟨hwithin x hmem, (Bool.not_eq_true' _).mp htouch⟩
  have hmoved := Tree.noOverlapReplace_decorations e.textLength hrest.maxEnds 0 hrest.sorted
    hstop fun x hx => (happly x hx).1.2.1
  have hwf : (rest.noOverlapReplace e.offset (e.offset + e.length) e.textLength 0).WellFormed := by
    refine ⟨Tree.noOverlapReplace_maxEnds hrest.maxEnds 0, ?_⟩
    rw [hmoved]
    refine pairwise_map.mpr (hrest.sorted.imp_of_mem fun hx _ hxy => ?_)
    obtain ⟨-, -, -, htext⟩ := hfits
    exact moveBehind_before hxy (happly _ hx).1.2.1 (happly _ hx).2 (by omega)
  obtain ⟨hwf', hperm'⟩ := hinsert.wellFormed hwf
  refine ⟨hwf', hperm'.trans ?_⟩
  rw [hmoved, map_congr_left fun x hx => moveBehind_edit (happly x hx).1 hfits (happly x hx).2, ← map_append]
  exact hperm.map _

def twoDecorations : Tree := .node .sentinel ⟨"a", 1, ⟨8, 1, 3⟩⟩ 4 6 (.node .sentinel ⟨"b", 2, ⟨0, 1, 2⟩⟩ 0 2 .sentinel)

end Replacement

end Gavea.IntervalTree
