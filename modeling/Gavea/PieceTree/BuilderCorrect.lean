import Gavea.PieceTree.Builder

namespace Gavea.PieceTree

open Lib.Js PieceTreeTextBufferBuilder List

def bomOf (s : JsString) : JsString := if startsWithUTF8BOM s then [UTF8_BOM] else []

def withoutBOM (s : JsString) : JsString := if startsWithUTF8BOM s then s.tail else s

section Bom

variable {u c : JsString}

theorem bomOf_append_withoutBOM (s : JsString) : bomOf s ++ withoutBOM s = s := by
  unfold bomOf withoutBOM
  split
  next h =>
      cases s with
      | nil => simp [startsWithUTF8BOM] at h
      | cons d s =>
        obtain rfl : d = UTF8_BOM := Option.some.inj h
        rfl
  next => rfl

theorem startsWithUTF8BOM_append (hu : u ≠ []) :
    startsWithUTF8BOM (u ++ c) ↔ startsWithUTF8BOM u := by
  unfold startsWithUTF8BOM
  rw [head?_append_of_ne_nil _ hu]

theorem bomOf_append (hu : u ≠ []) : bomOf (u ++ c) = bomOf u := by
  simp only [bomOf, startsWithUTF8BOM_append hu]

theorem withoutBOM_append (h : u ≠ [] ∨ ¬startsWithUTF8BOM c) :
    withoutBOM (u ++ c) = withoutBOM u ++ c := by
  by_cases hu : u = []
  · subst hu
    have hc : ¬startsWithUTF8BOM c := h.resolve_left fun hne => hne rfl
    rw [nil_append, withoutBOM, if_neg hc, withoutBOM, if_neg (by simp [startsWithUTF8BOM])]
    rfl
  · unfold withoutBOM
    simp only [startsWithUTF8BOM_append hu]
    split
    · rw [tail_append_of_ne_nil hu]
    · rfl

end Bom

def NothingPushed (u : JsString) : Prop := withoutBOM u = [] ∨ isSingleKeptBack (withoutBOM u)

def EndsKeptBack (u : JsString) : Prop := ∃ x, u.getLast? = some x ∧ isKeptBack x

def Accepts (u chunk : JsString) : Prop :=
  ¬(u ≠ [] ∧ NothingPushed u ∧ startsWithUTF8BOM chunk) ∧ ¬(EndsKeptBack u ∧ isSingleKeptBack chunk)

def AllAccepted (chunks : List JsString) : Prop :=
  ∀ front chunk back, chunks = front ++ chunk :: back → Accepts front.flatten chunk

structure Good (b : PieceTreeTextBufferBuilder) (u : JsString) : Prop where
  inv : b.Inv
  bom : b.BOM = bomOf u
  delivered : b.delivered = withoutBOM u

structure Bad (b : PieceTreeTextBufferBuilder) (u : JsString) : Prop where
  inv : b.Inv
  broken : (b.BOM = [UTF8_BOM] ∧ u ≠ [] ∧ ¬startsWithUTF8BOM u) ∨ b.BOM.length + b.delivered.length < u.length

section States

variable {b : PieceTreeTextBufferBuilder} {u chunk : JsString}

theorem Good.out_eq_nil_iff (h : Good b u) : b.out = [] ↔ NothingPushed u := by
  have hdelivered := h.delivered
  unfold PieceTreeTextBufferBuilder.delivered at hdelivered
  unfold NothingPushed
  rw [← hdelivered]
  constructor
  · intro hout
    rw [hout]
    cases hheld : b.held with
    | none => exact Or.inl rfl
    | some x => exact Or.inr ⟨x, h.inv.held x hheld, rfl⟩
  · rintro (hnil | ⟨x, hx, hsingle⟩)
    · exact (append_eq_nil_iff.mp hnil).1
    · rcases append_eq_singleton_iff.mp hsingle with ⟨hout, -⟩ | ⟨hout, hheld⟩
      · exact hout
      · have hnone : b.held = none := Option.toList_eq_nil_iff.mp hheld
        exact absurd hx (h.inv.last hnone x (by rw [hout]; rfl))

theorem Good.endsKeptBack_iff (h : Good b u) : EndsKeptBack u ↔ b.held ≠ none := by
  have hu : u = bomOf u ++ (b.out ++ b.held.toList) := by
    conv_lhs => rw [← bomOf_append_withoutBOM u, ← h.delivered]
    rfl
  constructor
  · rintro ⟨x, hlast, hx⟩ hnone
    rw [hu, hnone, Option.toList_none, append_nil] at hlast
    by_cases hout : b.out = []
    · rw [hout, append_nil] at hlast
      unfold bomOf at hlast
      split at hlast
      · exact (ne_of_isKeptBack hx).2 (Option.some.inj hlast).symm
      · simp at hlast
    · rw [getLast?_append_of_ne_nil _ hout] at hlast
      exact h.inv.last hnone x hlast hx
  · intro hheld
    obtain ⟨x, hx⟩ := Option.ne_none_iff_exists'.mp hheld
    refine ⟨x, ?_, h.inv.held x hx⟩
    rw [hu, hx]
    simp

theorem acceptChunk_of_ne (h : b.Inv) (hne : chunk ≠ []) : b.acceptChunk chunk =
    if b.out = [] ∧ startsWithUTF8BOM chunk then
      { b with BOM := [UTF8_BOM] }.acceptRest chunk.tail
    else b.acceptRest chunk := by
  unfold acceptChunk
  rw [if_neg (by simpa using hne)]
  simp only [h.out_eq_nil]

theorem Inv.withBOM (h : b.Inv) : Inv { b with BOM := [UTF8_BOM] } :=
  ⟨h.ne_nil, h.started, h.counts, h.held, h.last, Or.inr rfl⟩

theorem startsWithUTF8BOM_cons (h : startsWithUTF8BOM chunk) : chunk = UTF8_BOM :: chunk.tail := by
  have := bomOf_append_withoutBOM chunk
  rw [bomOf, withoutBOM, if_pos h, if_pos h] at this
  exact this.symm

theorem not_startsWithUTF8BOM_of_single (h : isSingleKeptBack chunk) :
    ¬startsWithUTF8BOM chunk := by
  obtain ⟨x, hx, rfl⟩ := h
  exact fun hbom => (ne_of_isKeptBack hx).2 (Option.some.inj hbom)

theorem good_acceptRest_of_empty {rest : JsString} (h : b.Inv) (hdelivered : b.delivered = []) :
    (b.acceptRest rest).Inv ∧ (b.acceptRest rest).BOM = b.BOM ∧
      (b.acceptRest rest).delivered = rest := by
  have hout : b.out = [] := (append_eq_nil_iff.mp hdelivered).1
  obtain ⟨hinv, hbom, -⟩ := h.acceptRest_any rest fun _ => hout
  refine ⟨hinv, hbom, ?_⟩
  by_cases hsingle : isSingleKeptBack rest
  · obtain ⟨x, hx, rfl⟩ := hsingle
    rw [acceptRest_single hx]
    change b.out ++ [x] = [x]
    rw [hout]
    rfl
  · by_cases hnil : rest = []
    · subst hnil
      rw [acceptRest_nil]
      change b.out ++ [] = []
      rw [hout]
      rfl
    · rw [(h.acceptRest hnil hsingle).2.2.2, hdelivered]
      rfl

theorem Good.step (h : Good b u) (haccepts : Accepts u chunk) :
    Good (b.acceptChunk chunk) (u ++ chunk) := by
  by_cases hne : chunk = []
  · subst hne
    rw [append_nil]
    exact h
  rw [acceptChunk_of_ne h.inv hne]
  split
  next hfirst =>
      obtain ⟨hout, hbom⟩ := hfirst
      have hu : u = [] := by
        by_contra hu
        exact haccepts.1 ⟨hu, h.out_eq_nil_iff.mp hout, hbom⟩
      subst hu
      have hdelivered : ({ b with BOM := [UTF8_BOM] } : PieceTreeTextBufferBuilder).delivered = [] := h.delivered
      obtain ⟨hinv, hbom', hrest⟩ := good_acceptRest_of_empty (Inv.withBOM h.inv) hdelivered
      refine ⟨hinv, ?_, ?_⟩
      · rw [hbom', nil_append, bomOf, if_pos hbom]
      · rw [hrest, nil_append, withoutBOM, if_pos hbom]
  next hnot =>
      have hplace : u ≠ [] ∨ ¬startsWithUTF8BOM chunk := by
        by_cases hu : u = []
        · refine Or.inr fun hbom => hnot ⟨h.out_eq_nil_iff.mpr (Or.inl ?_), hbom⟩
          rw [hu]
          rfl
        · exact Or.inl hu
      have hbomOf : bomOf (u ++ chunk) = bomOf u := by
        rcases hplace with hu | hbom
        · exact bomOf_append hu
        · by_cases hu : u = []
          · rw [hu, nil_append, bomOf, if_neg hbom]
            rfl
          · exact bomOf_append hu
      by_cases hsingle : isSingleKeptBack chunk
      · have hheld : b.held = none := by
          by_contra hheld
          exact haccepts.2 ⟨h.endsKeptBack_iff.mpr hheld, hsingle⟩
        obtain ⟨hinv, hbom, -⟩ := h.inv.acceptRest_any chunk fun hnil => absurd hnil hne
        refine ⟨hinv, by rw [hbom, h.bom, hbomOf], ?_⟩
        rw [withoutBOM_append hplace, ← h.delivered]
        obtain ⟨x, hx, rfl⟩ := hsingle
        rw [acceptRest_single hx, PieceTreeTextBufferBuilder.delivered,
          PieceTreeTextBufferBuilder.delivered, hheld, Option.toList_none, append_nil]
        rfl
      · obtain ⟨hinv, hbom, -, hdelivered⟩ := h.inv.acceptRest hne hsingle
        refine ⟨hinv, by rw [hbom, h.bom, hbomOf], ?_⟩
        rw [hdelivered, withoutBOM_append hplace, h.delivered]

theorem Good.break (h : Good b u) (haccepts : ¬Accepts u chunk) :
    Bad (b.acceptChunk chunk) (u ++ chunk) := by
  have hlength : u.length = b.BOM.length + b.delivered.length := by
    conv_lhs => rw [← bomOf_append_withoutBOM u, ← h.bom, ← h.delivered]
    rw [length_append]
  unfold Accepts at haccepts
  rw [not_and_or, not_not, not_not] at haccepts
  rcases haccepts with ⟨hu, hnothing, hbom⟩ | ⟨hends, hsingle⟩
  · have hchunk := startsWithUTF8BOM_cons hbom
    have hne : chunk ≠ [] := by
      rw [hchunk]
      simp
    have hout := h.out_eq_nil_iff.mpr hnothing
    rw [acceptChunk_of_ne h.inv hne, if_pos ⟨hout, hbom⟩]
    obtain ⟨hinv, hbom', hle⟩ := (Inv.withBOM h.inv).acceptRest_any chunk.tail fun _ => hout
    refine ⟨hinv, ?_⟩
    by_cases hstarts : startsWithUTF8BOM u
    · right
      have hold : b.BOM = [UTF8_BOM] := by rw [h.bom, bomOf, if_pos hstarts]
      have htail : chunk.length = chunk.tail.length + 1 := by
        conv_lhs => rw [hchunk, length_cons]
      change _ ≤ b.delivered.length + chunk.tail.length at hle
      change _ = [UTF8_BOM] at hbom'
      rw [hbom', length_append, hlength, hold]
      omega
    · left
      refine ⟨hbom', by simp [hu], ?_⟩
      rwa [startsWithUTF8BOM_append hu]
  · have hne : chunk ≠ [] := by
      obtain ⟨x, -, rfl⟩ := hsingle
      simp
    have hnot := not_startsWithUTF8BOM_of_single hsingle
    rw [acceptChunk_of_ne h.inv hne, if_neg fun hand => hnot hand.2]
    obtain ⟨hinv, hbom', -⟩ := h.inv.acceptRest_any chunk fun hnil => absurd hnil hne
    refine ⟨hinv, Or.inr ?_⟩
    obtain ⟨y, hy⟩ := Option.ne_none_iff_exists'.mp (h.endsKeptBack_iff.mp hends)
    obtain ⟨x, hx, rfl⟩ := hsingle
    rw [hbom', length_append, hlength, acceptRest_single hx]
    have hafter : (PieceTreeTextBufferBuilder.delivered
        { b with hasPreviousChar := true, previousChar := x }).length = b.out.length + 1 := by
      change (b.out ++ [x]).length = _
      simp
    have hbefore : b.delivered.length = b.out.length + 1 := by
      simp [PieceTreeTextBufferBuilder.delivered, hy]
    rw [hafter, hbefore, length_singleton]
    omega

theorem Bad.step (h : Bad b u) : Bad (b.acceptChunk chunk) (u ++ chunk) := by
  by_cases hne : chunk = []
  · subst hne
    rw [append_nil]
    exact h
  rw [acceptChunk_of_ne h.inv hne]
  have hkeep : u ≠ [] → ¬startsWithUTF8BOM u → u ++ chunk ≠ [] ∧ ¬startsWithUTF8BOM (u ++ chunk) :=
    fun hu hstarts => ⟨by simp [hu], by rwa [startsWithUTF8BOM_append hu]⟩
  split
  next hfirst =>
      obtain ⟨hinv, hbom, hle⟩ := (Inv.withBOM h.inv).acceptRest_any chunk.tail fun _ => hfirst.1
      refine ⟨hinv, ?_⟩
      rcases h.broken with ⟨-, hu, hstarts⟩ | hshort
      · exact Or.inl ⟨hbom, hkeep hu hstarts⟩
      · right
        have htail : chunk.length = chunk.tail.length + 1 := by
          conv_lhs => rw [startsWithUTF8BOM_cons hfirst.2, length_cons]
        change _ ≤ b.delivered.length + chunk.tail.length at hle
        change _ = [UTF8_BOM] at hbom
        rw [hbom, length_append, length_singleton]
        omega
  next =>
      obtain ⟨hinv, hbom, hle⟩ := h.inv.acceptRest_any chunk fun hnil => absurd hnil hne
      refine ⟨hinv, ?_⟩
      rcases h.broken with ⟨hold, hu, hstarts⟩ | hshort
      · exact Or.inl ⟨by rw [hbom, hold], hkeep hu hstarts⟩
      · right
        rw [hbom, length_append]
        omega

end States

section Runs

theorem allAccepted_nil : AllAccepted [] := by
  intro front chunk back heq
  simp at heq

theorem allAccepted_concat {chunks : List JsString} {chunk : JsString} :
    AllAccepted (chunks ++ [chunk]) ↔ AllAccepted chunks ∧ Accepts chunks.flatten chunk := by
  constructor
  · intro h
    refine ⟨fun front c back heq => h front c (back ++ [chunk]) ?_, h chunks chunk [] rfl⟩
    rw [heq]
    simp
  · rintro ⟨hall, hlast⟩ front c back heq
    rcases eq_nil_or_concat back with rfl | ⟨back', last, rfl⟩
    · obtain ⟨rfl, hc⟩ := append_inj' heq rfl
      obtain rfl := singleton_inj.mp hc
      exact hlast
    · have heq' : chunks ++ [chunk] = (front ++ c :: back') ++ [last] := by simpa using heq
      exact hall front c back' (append_inj' heq' rfl).1

/-- A builder whose chunks were all accepted has the text, another one never gets it back. -/
theorem good_or_bad (chunks : List JsString) :
    (AllAccepted chunks → Good ((({} : PieceTreeTextBufferBuilder)).acceptChunks chunks) chunks.flatten) ∧
    (¬AllAccepted chunks → Bad (({} : PieceTreeTextBufferBuilder).acceptChunks chunks)
      chunks.flatten) := by
  induction chunks using List.reverseRecOn with
  | nil => exact ⟨fun _ => ⟨Inv.empty, rfl, rfl⟩, fun h => absurd allAccepted_nil h⟩
  | append_singleton chunks chunk ih =>
    have hstep : (({} : PieceTreeTextBufferBuilder).acceptChunks (chunks ++ [chunk])) =
        (({} : PieceTreeTextBufferBuilder).acceptChunks chunks).acceptChunk chunk := by
      simp [acceptChunks]
    have hflatten : (chunks ++ [chunk]).flatten = chunks.flatten ++ chunk := by simp
    rw [hstep, hflatten, allAccepted_concat]
    refine ⟨fun h => (ih.1 h.1).step h.2, fun h => ?_⟩
    by_cases hall : AllAccepted chunks
    · exact (ih.1 hall).break fun hlast => h ⟨hall, hlast⟩
    · exact (ih.2 hall).step

structure Delivers (b : PieceTreeTextBufferBuilder) (s : JsString) : Prop where
  bom : b.BOM = bomOf s
  text : b.finalText = withoutBOM s

def EndsTwice (chunks : List JsString) : Prop :=
  ∃ front back x, isKeptBack x ∧ chunks = front ++ [x] :: back ∧ back.flatten = [] ∧ withoutBOM front.flatten = [x]

theorem Good.delivers_iff {b : PieceTreeTextBufferBuilder} {s : JsString} (h : Good b s) :
    Delivers b s ↔ ¬isSingleKeptBack (withoutBOM s) := by
  have hdelivered := h.delivered
  constructor
  · rintro ⟨-, htext⟩ ⟨x, hx, hsingle⟩
    have hout := h.out_eq_nil_iff.mpr (Or.inr ⟨x, hx, hsingle⟩)
    rw [finalText, if_pos hout, ← hdelivered, PieceTreeTextBufferBuilder.delivered, hout, nil_append] at htext
    rw [← hdelivered, PieceTreeTextBufferBuilder.delivered, hout, nil_append] at hsingle
    rw [hsingle] at htext
    simp at htext
  · intro hnot
    refine ⟨h.bom, ?_⟩
    unfold finalText
    split
    next hout =>
        have hnil : withoutBOM s = [] := (h.out_eq_nil_iff.mp hout).resolve_right hnot
        rw [hnil] at hdelivered ⊢
        have hheld := (append_eq_nil_iff.mp hdelivered).2
        rw [hheld]
        rfl
    next => exact hdelivered

theorem Bad.finalText_of_delivers {b : PieceTreeTextBufferBuilder} {s : JsString} (h : Bad b s)
    (hdelivers : Delivers b s) : ∃ x, isKeptBack x ∧ withoutBOM s = [x, x] := by
  obtain ⟨hbom, htext⟩ := hdelivers
  rcases h.broken with ⟨hBOM, hs, hstarts⟩ | hshort
  · rw [hBOM, bomOf, if_neg hstarts] at hbom
    simp at hbom
  · have hs : s.length = b.BOM.length + b.finalText.length := by
      conv_lhs => rw [← bomOf_append_withoutBOM s, ← hbom, ← htext]
      rw [length_append]
    rw [← htext]
    unfold finalText at hs ⊢
    split at hs
    next hout =>
        cases hheld : b.held with
        | none =>
          rw [hheld] at hs
          simp at hs
          omega
        | some x =>
          refine ⟨x, h.inv.held x hheld, ?_⟩
          rw [if_pos hout]
          rfl
    next => omega

theorem mem_withoutBOM_of_append {s front back : JsString} {c : CodeUnit}
    (h : s = front ++ c :: back) (hfront : front ≠ []) : c ∈ withoutBOM s := by
  rw [h, withoutBOM_append (Or.inl hfront)]
  simp

theorem exists_of_not_allAccepted {chunks : List JsString} (h : ¬AllAccepted chunks) :
    ∃ front chunk back, chunks = front ++ chunk :: back ∧ ¬Accepts front.flatten chunk := by
  by_contra hnone
  refine h fun front chunk back heq => ?_
  by_contra hnot
  exact hnone ⟨front, chunk, back, heq, hnot⟩

theorem exists_of_not_accepts {front chunk back s : JsString} {x : CodeUnit} (hx : isKeptBack x)
    (hs : s = front ++ (chunk ++ back)) (hall : ∀ c ∈ withoutBOM s, c = x)
    (hnot : ¬Accepts front chunk) :
    ∃ y, isKeptBack y ∧ chunk = [y] ∧ EndsKeptBack front ∧ withoutBOM front ≠ [] := by
  unfold Accepts at hnot
  rw [not_and_or, not_not, not_not] at hnot
  rcases hnot with ⟨hfront, -, hbom⟩ | ⟨hends, y, hy, rfl⟩
  · rw [startsWithUTF8BOM_cons hbom] at hs
    have := hall _ (mem_withoutBOM_of_append hs hfront)
    exact absurd this.symm (ne_of_isKeptBack hx).2
  · refine ⟨y, hy, rfl, hends, fun hnil => ?_⟩
    obtain ⟨z, hz, hkept⟩ := hends
    have hfront : front = bomOf front := by
      conv_lhs => rw [← bomOf_append_withoutBOM front, hnil, append_nil]
    rw [hfront, bomOf] at hz
    split at hz
    · exact (ne_of_isKeptBack hkept).2 (Option.some.inj hz).symm
    · simp at hz

theorem endsTwice_of_not_allAccepted {chunks : List JsString} (h : ¬AllAccepted chunks)
    {x : CodeUnit} (hx : isKeptBack x) (hs : withoutBOM chunks.flatten = [x, x]) :
    EndsTwice chunks := by
  obtain ⟨front, chunk, back, rfl, hnot⟩ := exists_of_not_allAccepted h
  have hflatten : (front ++ chunk :: back).flatten = front.flatten ++ (chunk ++ back.flatten) := by
    simp
  obtain ⟨y, hy, rfl, hends, hne⟩ := exists_of_not_accepts hx hflatten (by rw [hs]; simp) hnot
  have hfront : front.flatten ≠ [] := by
    intro hnil
    rw [hnil] at hne
    exact hne rfl
  rw [hflatten, withoutBOM_append (Or.inl hfront)] at hs
  obtain ⟨z, rest, hz⟩ := exists_cons_of_ne_nil hne
  rw [hz] at hs
  simp only [cons_append, List.cons.injEq] at hs
  obtain ⟨rfl, hs⟩ := hs
  cases rest with
  | cons w rest => simp at hs
  | nil =>
    simp only [nil_append, List.cons.injEq] at hs
    obtain ⟨rfl, hback⟩ := hs
    exact ⟨front, back, y, hy, rfl, hback, hz⟩

theorem acceptChunks_of_flatten_eq_nil (b : PieceTreeTextBufferBuilder) {chunks : List JsString}
    (h : chunks.flatten = []) : b.acceptChunks chunks = b := by
  induction chunks with
  | nil => rfl
  | cons chunk chunks ih =>
    rw [flatten_cons, append_eq_nil_iff] at h
    obtain ⟨rfl, h⟩ := h
    exact ih h

theorem delivers_of_endsTwice {chunks : List JsString} (h : EndsTwice chunks) :
    Delivers (({} : PieceTreeTextBufferBuilder).acceptChunks chunks) chunks.flatten := by
  obtain ⟨front, back, x, hx, rfl, hback, hfront⟩ := h
  have hne : front.flatten ≠ [] := by
    intro hnil
    rw [hnil] at hfront
    simp [withoutBOM, startsWithUTF8BOM] at hfront
  have haccepted : AllAccepted front := by
    intro f c b' heq
    by_contra hnot
    have hflatten : front.flatten = f.flatten ++ (c ++ b'.flatten) := by
      rw [heq]
      simp
    obtain ⟨y, -, rfl, -, hf⟩ := exists_of_not_accepts hx hflatten (by rw [hfront]; simp) hnot
    have hf' : f.flatten ≠ [] := by
      intro hnil
      rw [hnil] at hf
      exact hf rfl
    rw [hflatten, withoutBOM_append (Or.inl hf')] at hfront
    have hlength := congrArg List.length hfront
    have hpos := length_pos_iff.mpr hf
    simp at hlength
    omega
  have hgood := (good_or_bad front).1 haccepted
  set b := ({} : PieceTreeTextBufferBuilder).acceptChunks front with hb
  have hout : b.out = [] := hgood.out_eq_nil_iff.mpr (Or.inr ⟨x, hx, hfront⟩)
  have hafter : ({} : PieceTreeTextBufferBuilder).acceptChunks (front ++ [x] :: back) =
      { b with hasPreviousChar := true, previousChar := x } := by
    have hsplit : ({} : PieceTreeTextBufferBuilder).acceptChunks (front ++ [x] :: back) =
        (b.acceptChunk [x]).acceptChunks back := by
      simp [acceptChunks, hb]
    have hnot : ¬startsWithUTF8BOM [x] := not_startsWithUTF8BOM_of_single ⟨x, hx, rfl⟩
    rw [hsplit, acceptChunks_of_flatten_eq_nil _ hback, acceptChunk_of_ne hgood.inv (cons_ne_nil x []),
      if_neg fun hand => hnot hand.2, acceptRest_single hx]
  have hflatten : (front ++ [x] :: back).flatten = front.flatten ++ [x] := by
    simp [hback]
  rw [hafter, hflatten]
  refine ⟨?_, ?_⟩
  · rw [bomOf_append hne]
    exact hgood.bom
  · rw [withoutBOM_append (Or.inl hne), hfront]
    change (if b.out = [] then [x] ++ [x] else b.out ++ [x]) = _
    rw [if_pos hout]

def Intact (chunks : List JsString) : Prop :=
  (AllAccepted chunks ∧ ¬isSingleKeptBack (withoutBOM chunks.flatten)) ∨ EndsTwice chunks

theorem delivers_iff (chunks : List JsString) :
    Delivers (({} : PieceTreeTextBufferBuilder).acceptChunks chunks) chunks.flatten ↔
      Intact chunks := by
  constructor
  · intro h
    by_cases hall : AllAccepted chunks
    · exact Or.inl ⟨hall, ((good_or_bad chunks).1 hall).delivers_iff.mp h⟩
    · obtain ⟨x, hx, hs⟩ := ((good_or_bad chunks).2 hall).finalText_of_delivers h
      exact Or.inr (endsTwice_of_not_allAccepted hall hx hs)
  · rintro (⟨hall, hsingle⟩ | htwice)
    · exact ((good_or_bad chunks).1 hall).delivers_iff.mpr hsingle
    · exact delivers_of_endsTwice htwice

theorem inv_acceptChunks (chunks : List JsString) :
    (({} : PieceTreeTextBufferBuilder).acceptChunks chunks).Inv := by
  by_cases hall : AllAccepted chunks
  · exact ((good_or_bad chunks).1 hall).inv
  · exact ((good_or_bad chunks).2 hall).inv

end Runs

/-- What a list of chunks becomes: the text of the buffer, the BOM and the counts. -/
structure Outcome where
  text : JsString
  bom : JsString
  cr : Nat
  lf : Nat
  crlf : Nat

def build (defaultEOL : DefaultEndOfLine) (chunks : List JsString) : Outcome :=
  let factory := (({} : PieceTreeTextBufferBuilder).acceptChunks chunks).finish false
  let textBuffer := factory.create defaultEOL
  { text := textBuffer.pieceTree.getLinesRawContent
    bom := textBuffer.BOM
    cr := factory.cr
    lf := factory.lf
    crlf := factory.crlf }

structure Faithful (s : JsString) (o : Outcome) : Prop where
  bom : o.bom = bomOf s
  text : o.bom ++ o.text = s
  counts : CountsEol s o.cr o.lf o.crlf

theorem countsEol_bom_append {u : JsString} {bom : JsString} (h : bom = [] ∨ bom = [UTF8_BOM])
    {cr lf crlf : Nat} : CountsEol (bom ++ u) cr lf crlf ↔ CountsEol u cr lf crlf := by
  rcases h with rfl | rfl
  · rfl
  · constructor
    · rintro ⟨h1, h2, h3⟩
      exact ⟨by simpa [crlfPairs, UTF8_BOM, carriageReturn] using h1,
        by simpa [UTF8_BOM, carriageReturn] using h2, by simpa [UTF8_BOM, lineFeed] using h3⟩
    · rintro ⟨h1, h2, h3⟩
      exact ⟨by simpa [crlfPairs, UTF8_BOM, carriageReturn] using h1,
        by simpa [UTF8_BOM, carriageReturn] using h2, by simpa [UTF8_BOM, lineFeed] using h3⟩

theorem faithful_iff_intact (defaultEOL : DefaultEndOfLine) (chunks : List JsString) :
    Faithful chunks.flatten (build defaultEOL chunks) ↔ Intact chunks := by
  have hinv := inv_acceptChunks chunks
  have hfinished := hinv.finishChunks
  rw [← delivers_iff]
  set b := ({} : PieceTreeTextBufferBuilder).acceptChunks chunks with hb
  have hbom : (build defaultEOL chunks).bom = b.BOM := hfinished.bom
  have htext : (build defaultEOL chunks).text = b.finalText := by
    rw [← hfinished.content]
    simp [build, PieceTreeTextBufferFactory.create, finish, hb]
  have hcounts : CountsEol b.finalText (build defaultEOL chunks).cr (build defaultEOL chunks).lf
      (build defaultEOL chunks).crlf := hfinished.counts
  constructor
  · rintro ⟨h1, h2, -⟩
    rw [hbom] at h1
    refine ⟨h1, ?_⟩
    rw [hbom, htext, h1] at h2
    exact append_cancel_left (h2.trans (bomOf_append_withoutBOM chunks.flatten).symm)
  · rintro ⟨h1, h2⟩
    have h3 : b.BOM ++ b.finalText = chunks.flatten := by
      rw [h1, h2, bomOf_append_withoutBOM]
    refine ⟨by rw [hbom, h1], by rw [hbom, htext, h3], ?_⟩
    rw [← h3]
    exact (countsEol_bom_append hinv.bom).mpr hcounts

theorem Faithful.unique {s : JsString} {o o' : Outcome} (h : Faithful s o) (h' : Faithful s o') :
    o = o' := by
  have hbom : o.bom = o'.bom := h.bom.trans h'.bom.symm
  have htext : o.text = o'.text := by
    have := h.text.trans h'.text.symm
    rw [hbom] at this
    exact append_cancel_left this
  obtain ⟨hcr, hlf, hcrlf⟩ := h.counts.unique h'.counts
  cases o
  cases o'
  simp_all

/-- The builder is faithful to exactly the intact lists of chunks, and an intact list gives what
another split of its text gives exactly when that split is intact too. -/
theorem build_faithful_iff (defaultEOL : DefaultEndOfLine) (chunks : List JsString) :
    (Faithful chunks.flatten (build defaultEOL chunks) ↔ Intact chunks) ∧
    ∀ split : List JsString, split.flatten = chunks.flatten → Intact chunks →
      (build defaultEOL split = build defaultEOL chunks ↔ Intact split) := by
  refine ⟨faithful_iff_intact defaultEOL chunks, fun split hsplit hchunks => ?_⟩
  have hfaithful := (faithful_iff_intact defaultEOL chunks).mpr hchunks
  have hsplit' := faithful_iff_intact defaultEOL split
  rw [hsplit] at hsplit'
  constructor
  · intro heq
    rw [heq] at hsplit'
    exact hsplit'.mp hfaithful
  · intro hintact
    exact (hsplit'.mpr hintact).unique hfaithful

/-- `"a\r\n"` in one chunk, and torn apart inside its line break. -/
theorem build_faithful_iff_torn :
    Faithful [97, 13, 10] (build .LF [[97, 13, 10]]) ∧
      build .LF [[97, 13], [10]] = build .LF [[97, 13, 10]] := by
  have hone : Intact [[97, 13, 10]] := by
    refine Or.inl ⟨allAccepted_concat.mpr ⟨allAccepted_nil, ?_, ?_⟩, ?_⟩
    · exact fun h => h.1 rfl
    · rintro ⟨⟨x, hx, -⟩, -⟩
      simp at hx
    · rintro ⟨x, -, hx⟩
      exact absurd (congrArg List.length hx) (by rw [length_singleton]; decide)
  have htwo : Intact [[97, 13], [10]] := by
    refine Or.inl ⟨allAccepted_concat.mpr ⟨allAccepted_concat.mpr
      ⟨allAccepted_nil, ?_, ?_⟩, ?_, ?_⟩, ?_⟩
    · exact fun h => h.1 rfl
    · rintro ⟨⟨x, hx, -⟩, -⟩
      simp at hx
    · exact fun h => absurd h.2.2 (by decide)
    · rintro ⟨-, x, hx, hsingle⟩
      obtain rfl := (singleton_inj.mp hsingle)
      exact absurd hx (by decide)
    · rintro ⟨x, -, hx⟩
      exact absurd (congrArg List.length hx) (by rw [length_singleton]; decide)
  have h := build_faithful_iff .LF [[97, 13, 10]]
  exact ⟨h.1.mpr hone, (h.2 [[97, 13], [10]] rfl hone).mpr htwo⟩

/-- A text that is one `\r` comes out twice, a chunk that is only `\r` swallows the `\r` in front
of it, and a second BOM is taken for the first one. -/
theorem not_build_faithful :
    (build .LF [[13]]).text = [13, 13] ∧ ¬Faithful [13] (build .LF [[13]]) ∧
    (build .LF [[97], [13], [13]]).text = [97, 13] ∧ ¬Faithful [97, 13, 13] (build .LF [[97], [13], [13]]) ∧
    (build .LF [[0xFEFF], [0xFEFF, 97]]).text = [97] ∧
      ¬Faithful [0xFEFF, 0xFEFF, 97] (build .LF [[0xFEFF], [0xFEFF, 97]]) := by
  refine ⟨by decide, ?_, by decide, ?_, by decide, ?_⟩
  · exact fun h => absurd h.text (by decide)
  · exact fun h => absurd h.text (by decide)
  · exact fun h => absurd h.text (by decide)

end Gavea.PieceTree
