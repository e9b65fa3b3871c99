import Meridian.FreshTexts

/-! A batch of operations on a rich document. Every call lists the texts of the document anew, as
the calls before it have left them. Since the batch goes from the back of the document to its
front, a call finds everything in front of it where the first document had it, and no call
displaces another. -/
namespace Meridian

open Splice

def onPlaced (nodes : List LinearXmlText) (g : ℕ → LinearXmlText → XmlText → XmlText) (i : ℕ)
    (content : XmlText) : XmlText :=
  match nodes[i]? with
  | some node => g i node content
  | none => content

def Survives (ops : List AiOp) (node : LinearXmlText) : Prop :=
  ∃ p : ℕ, node.start ≤ p ∧ p < node.stop ∧
    ∀ range : TextRange, .delete range ∈ ops → ¬ (range.start ≤ p ∧ p < range.stop)

section Calls

variable {fragment : XmlFragment} {q : ℕ} {f : ℕ → XmlText → XmlText} {op : AiOp}
  {ops : List AiOp}

theorem getElem?_of_forall₂ {α β : Type*} {R : α → β → Prop} {l : List α} {l' : List β}
    (h : List.Forall₂ R l l') (i : ℕ) :
    (l[i]? = none ∧ l'[i]? = none) ∨ ∃ a b, l[i]? = some a ∧ l'[i]? = some b ∧ R a b := by
  induction h generalizing i with
  | nil => exact .inl ⟨rfl, rfl⟩
  | cons hab _ ih =>
    cases i with
    | zero => exact .inr ⟨_, _, rfl, rfl, hab⟩
    | succ i => exact ih i

theorem targetIndex_lt {nodes : List LinearXmlText} (h : nodes ≠ []) (position : ℤ) :
    targetIndex nodes position < nodes.length := by
  rw [targetIndex]
  cases hfind : nodes.findIdx? fun node => decide (position ≤ node.stop) with
  | none => exact Nat.sub_lt (List.length_pos_iff.mpr h) Nat.one_pos
  | some i => exact (List.findIdx?_eq_some_iff_getElem.mp hfind).choose

theorem length_mapTexts (i : ℕ) (nodes : List XmlNode) :
    (mapTexts f nodes i).1.length = nodes.length := by
  induction nodes generalizing i with
  | nil => rfl
  | cons child children ih => exact congrArg (· + 1) (ih _)

theorem any_overlap_near {nodes nodes' : List LinearXmlText}
    (h : List.Forall₂ (Near q) nodes' nodes) {start length : ℤ} (hq : start + length ≤ q) :
    (nodes'.any fun node => (overlap start length node).isSome) =
      nodes.any fun node => (overlap start length node).isSome := by
  induction h with
  | nil => rfl
  | cons hab _ ih => rw [List.any_cons, List.any_cons, ih, hab.overlap_eq hq]

variable [XmlTextCalls]

theorem forEachXmlTextRange_mapTexts (h : FreshFrom q f 0 (placedTexts fragment))
    {start length : ℤ} (hq : start + length ≤ q) (callback : XmlText → ℕ → ℕ → XmlText) :
    forEachXmlTextRange start length callback (mapTexts f fragment 0).1 =
      (mapTexts (fun i content => onPlaced (linearizeXmlText fragment)
        (fun _ => rangeEdit start length callback) i (f i content)) fragment 0).1 := by
  unfold forEachXmlTextRange
  dsimp only
  rw [mapTexts_mapTexts]
  congr 2
  funext i content
  rw [onPlaced]
  rcases getElem?_of_forall₂ (near_linearizeXmlText h) i with ⟨hold, hnew⟩ | ⟨a, b, ha, hb, hab⟩
  · rw [hold, hnew]
    rfl
  · rw [ha, hb, Option.bind_some, hab.overlap_eq hq]
    simp only [rangeEdit]
    cases overlap start length b <;> rfl

theorem insertText_mapTexts (h : FreshFrom q f 0 (placedTexts fragment)) {position : ℤ}
    (hq : position ≤ q) (hne : linearizeXmlText fragment ≠ []) {text : JsString}
    (htext : (splitBlocks text).length ≤ 1) (anchor : Option Anchor) :
    insertText (mapTexts f fragment 0).1 position text =
      (mapTexts (fun i content => onPlaced (linearizeXmlText fragment) (fun i node content =>
        ownOp (linearizeXmlText fragment) i node content (.insert position text anchor)) i
          (f i content)) fragment 0).1 := by
  have hnear := near_linearizeXmlText h
  have htarget := targetIndex_near hnear hq
  have hlt := targetIndex_lt hne position
  rcases getElem?_of_forall₂ hnear (targetIndex (linearizeXmlText fragment) position) with
    ⟨-, hnone⟩ | ⟨a, b, ha, hb, hab⟩
  · exact absurd (List.getElem?_eq_none_iff.mp hnone) (not_le.mpr hlt)
  · rw [insertText_eq (htarget ▸ ha), if_pos htext, mapTexts_mapTexts, htarget]
    congr 2
    funext i content
    rw [onPlaced]
    by_cases hi : i = targetIndex (linearizeXmlText fragment) position
    · rw [if_pos hi, hi, hb, hab.localOffset_eq hq]
      exact (if_pos rfl).symm
    · rw [if_neg hi]
      cases (linearizeXmlText fragment)[i]? with
      | none => rfl
      | some node => exact (if_neg hi).symm

theorem pruneEmptyBlocks_of_kept {blocks : List ℕ}
    (h : fragment.length ≤ 1 ∨ ∀ i ∈ blocks, fragment[i]?.any blockIsEmpty = false) :
    pruneEmptyBlocks blocks 0 fragment = fragment := by
  induction blocks with
  | nil => rfl
  | cons block blocks ih =>
    rw [pruneEmptyBlocks]
    split
    · rfl
    · next hlen =>
      obtain ⟨hblock, hrest⟩ := List.forall_mem_cons.mp (h.resolve_left hlen)
      rw [Nat.sub_zero, hblock]
      exact ih (.inr hrest)

theorem forall₂_linearizeBlocks (kept : LinearXmlText → Prop) (offset i : ℕ)
    (fragment : XmlFragment)
    (h : ∀ j p, ((linearizeBlocks offset fragment).flatten.zip (textsOf fragment))[j]? = some p →
      kept p.1 → (f (i + j) p.2).chars ≠ []) :
    List.Forall₂ (fun nodes block => (∃ node ∈ nodes, kept node) → extractInlineText block ≠ [])
      (linearizeBlocks offset fragment) (mapTexts f fragment i).1 := by
  induction fragment generalizing offset i with
  | nil => exact .nil
  | cons child children ih =>
    rw [linearizeBlocks, List.flatten_cons, textsOf,
      List.zip_append (by rw [length_collectXmlText, length_texts])] at h
    rw [mapTexts]
    simp only [(texts_mapText f i child).2]
    refine .cons ?_ (ih _ _ fun j p hp hkept => ?_)
    · rintro ⟨node, hnode, hkept⟩
      obtain ⟨j, hj⟩ := List.getElem?_of_mem hnode
      have hlt := (List.getElem?_eq_some_iff.mp hj).1
      rw [length_collectXmlText, ← length_texts] at hlt
      have hzip : ((collectXmlText child offset).1.zip child.texts)[j]? =
          some (node, child.texts[j]) :=
        List.getElem?_zip_eq_some.mpr ⟨hj, List.getElem?_eq_getElem hlt⟩
      have hchars : (f (i + j) child.texts[j]).chars ≠ [] := by
        refine h j (node, child.texts[j]) ?_ hkept
        rw [List.getElem?_append_left (List.getElem?_eq_some_iff.mp hzip).1, hzip]
      have hmem : f (i + j) child.texts[j] ∈ child.texts.mapIdx fun j => f (i + j) :=
        List.mem_iff_getElem?.mpr ⟨j, by
          rw [List.getElem?_mapIdx, List.getElem?_eq_getElem hlt]
          rfl⟩
      rw [extractInlineText_eq_flatMap, (texts_mapText f i child).1]
      intro hnil
      have hshown := congrArg List.length (List.flatMap_eq_nil_iff.mp hnil _ hmem)
      have hle : (f (i + j) child.texts[j]).chars.length ≤
          (f (i + j) child.texts[j]).toString.length := XmlText.length_le_toString _
      have hpos := List.length_pos_iff.mpr hchars
      rw [List.length_nil] at hshown
      omega
    · rw [Nat.add_assoc]
      refine h _ p ?_ hkept
      rw [← length_zip_texts offset child, List.getElem?_append_right (Nat.le_add_right _ _),
        Nat.add_sub_cancel_left]
      rw [collectXmlText_snd] at *
      exact hp

/-- A delete that empties no block changes the texts, by the ranges of the first document. -/
theorem deleteText_mapTexts (h : FreshFrom q f 0 (placedTexts fragment)) {start length : ℤ}
    (hq : start + length ≤ q) (kept : LinearXmlText → Prop)
    (hblocks : fragment.length ≤ 1 ∨ ∀ nodes ∈ linearizeBlocks 0 fragment,
      (nodes.any fun node => (overlap start length node).isSome) = true → ∃ node ∈ nodes, kept node)
    (hchars : ∀ j p, (placedTexts fragment)[j]? = some p → kept p.1 →
      (rangeEdit start length XmlText.delete p.1 (f j p.2)).chars ≠ []) :
    deleteText (mapTexts f fragment 0).1 start length =
      (mapTexts (fun i content => onPlaced (linearizeXmlText fragment)
        (fun _ => rangeEdit start length XmlText.delete) i (f i content)) fragment 0).1 := by
  rw [deleteText, forEachXmlTextRange_mapTexts h hq]
  refine pruneEmptyBlocks_of_kept (hblocks.imp (fun hone => ?_) fun hkept i hi => ?_)
  · rwa [length_mapTexts]
  have hfilled := forall₂_linearizeBlocks kept (f := fun i content =>
    onPlaced (linearizeXmlText fragment) (fun _ => rangeEdit start length XmlText.delete) i
      (f i content)) 0 0 fragment fun j p hp hkeeps => by
    have hnode : (linearizeXmlText fragment)[0 + j]? = some p.1 := by
      rw [Nat.zero_add]
      exact (List.getElem?_zip_eq_some.mp hp).1
    simp only [onPlaced, hnode]
    rw [Nat.zero_add]
    exact hchars j p hp hkeeps
  have htouched := (List.mem_filter.mp hi).2
  rw [List.getElem?_zipWith] at htouched
  rcases getElem?_of_forall₂ (near_linearizeBlocks 0 0 0 rfl fragment h) i with
    ⟨hnone, -⟩ | ⟨nodes', nodes, hnodes', hnodes, hnear⟩
  · simp [hnone] at htouched
  · rw [hnodes'] at htouched
    cases hchild : (mapTexts f fragment 0).1[i]? with
    | none =>
      rw [hchild] at htouched
      cases htouched
    | some child =>
      rw [hchild] at htouched
      have hany := ((Bool.and_eq_true _ _).mp htouched).2
      rw [any_overlap_near hnear hq] at hany
      rcases getElem?_of_forall₂ hfilled i with ⟨hnone, -⟩ | ⟨nodes₂, block, hn, hb, hne⟩
      · rw [hnodes] at hnone
        cases hnone
      · obtain rfl := Option.some.inj (hnodes.symm.trans hn)
        rw [hb, Option.any_some, blockIsEmpty, Bool.eq_false_iff]
        exact fun hempty => hne (hkept nodes (List.mem_of_getElem? hnodes) hany)
          (List.isEmpty_iff.mp hempty)

end Calls

/-- A batch that can be done at once. Its operations are apart and none begins or ends behind the
first half of a surrogate pair, its inserts go into texts and bring no blank line, and no block
loses all of its characters while there are others. -/
structure BatchFits [XmlTextCalls] (fragment : XmlFragment) (ops : List AiOp) : Prop where
  apart : EditsApart (extractFragmentText fragment).length ops
  pairs : ∀ op ∈ ops, ∀ placed ∈ placedTexts fragment, op.SparesPairs placed.1 placed.2
  inserts : ∀ (position : ℤ) text anchor, .insert position text anchor ∈ ops →
    (splitBlocks text).length ≤ 1 ∧
      ∃ node ∈ linearizeXmlText fragment, node.start ≤ position ∧ position ≤ node.stop
  blocks : fragment.length ≤ 1 ∨ ∀ nodes ∈ linearizeBlocks 0 fragment, ∀ range : TextRange,
    .delete range ∈ ops →
    (nodes.any fun node => (overlap range.start (range.stop - range.start) node).isSome) = true →
      ∃ node ∈ nodes, Survives ops node

section Batch

variable {fragment : XmlFragment} {ops done : List AiOp} {op : AiOp} {q i : ℕ}
  {node : LinearXmlText} {content : XmlText}

theorem editedText_ne_nil (nodes : List LinearXmlText) (hsurvives : Survives ops node)
    (hdone : ∀ op ∈ done, op ∈ ops) (hstop : node.stop = node.start + content.chars.length) :
    (editedText nodes done i node content).chars ≠ [] := by
  obtain ⟨p, hlow, hhigh, hkept⟩ := hsurvives
  refine simultaneous_ne_nil (k := p - node.start) ?_ ?_
  · rw [length_formatted]
    omega
  · rw [Bool.eq_false_iff, Ne, deletedAt_iff]
    rintro ⟨start, length, hmem, hstart, hend⟩
    obtain ⟨op, hop, hedit⟩ := List.mem_filterMap.mp hmem
    cases op with
    | insert position text anchor =>
      rw [ownEdit] at hedit
      split at hedit <;> cases hedit
    | delete range =>
      rw [ownEdit] at hedit
      obtain ⟨window, hwindow, hsame⟩ := Option.map_eq_some_iff.mp hedit
      cases hsame
      unfold overlap at hwindow
      dsimp only at hwindow
      split at hwindow
      · cases hwindow
      · cases hwindow
        refine hkept range (hdone _ hop) ?_
        omega
    | format range formats => cases hedit

theorem formatAt_disjoint (h : EditsApart i ops) (p : ℤ) {a b : AiOp} (ha : a ∈ ops) (hb : b ∈ ops)
    (hne : a ≠ b) (attributes : Attributes) :
    b.formatAt p (a.formatAt p attributes) = a.formatAt p (b.formatAt p attributes) := by
  have hsymm : Std.Symm fun a b : AiOp => ∀ r ∈ a.range?, ∀ r' ∈ b.range?,
      r.stop ≤ r'.start ∨ r'.stop ≤ r.start := ⟨fun _ _ hab r hr r' hr' => (hab r' hr' r hr).symm⟩
  have hdisjoint := h.disjoint.forall ha hb hne
  have hone : (∀ attributes, a.formatAt p attributes = attributes) ∨
      ∀ attributes, b.formatAt p attributes = attributes := by
    cases a with
    | insert position text anchor => exact .inl fun _ => rfl
    | delete range => exact .inl fun _ => rfl
    | format range formats =>
      cases b with
      | insert position text anchor => exact .inr fun _ => rfl
      | delete range => exact .inr fun _ => rfl
      | format range' formats' =>
        have happart := hdisjoint range rfl range' rfl
        by_cases hin : range.start ≤ p ∧ p < range.stop
        · exact .inr fun attributes => if_neg (by omega)
        · exact .inl fun attributes => if_neg hin
  rcases hone with h | h
  · rw [h, h]
  · rw [h, h]

variable [XmlTextCalls]

theorem targetIndex_inside {position : ℤ}
    (h : ∃ node ∈ linearizeXmlText fragment, node.start ≤ position ∧ position ≤ node.stop)
    (hnode : (linearizeXmlText fragment)[targetIndex (linearizeXmlText fragment) position]? =
      some node) : node.start ≤ position ∧ position ≤ node.stop := by
  obtain ⟨owner, howner, hlow, hhigh⟩ := h
  have hbounds := (ordered_linearizeBlocks 0 fragment).choose_spec.bounds
  cases hfind : (linearizeXmlText fragment).findIdx? fun node => decide (position ≤ node.stop) with
  | none =>
    have hnone := List.findIdx?_eq_none_iff.mp hfind owner howner
    exact absurd hhigh (of_decide_eq_false hnone)
  | some t =>
    rw [targetIndex, hfind, Option.getD_some] at hnode
    obtain ⟨ht, hle, hbefore⟩ := List.findIdx?_eq_some_iff_getElem.mp hfind
    obtain ⟨-, rfl⟩ := List.getElem?_eq_some_iff.mp hnode
    have hle := of_decide_eq_true hle
    refine ⟨?_, hle⟩
    obtain ⟨c, hc, rfl⟩ := List.getElem_of_mem howner
    rcases Nat.lt_trichotomy c t with hlt | rfl | hgt
    · exact absurd (decide_eq_true hhigh) (hbefore c hlt)
    · exact hlow
    · have horder := List.pairwise_iff_getElem.mp (pairwise_linearizeXmlText fragment) t c ht hc hgt
      have := (hbounds _ (List.getElem_mem ht)).2.1
      omega

theorem BatchFits.fits (h : BatchFits fragment ops) (hop : op ∈ ops)
    (hnode : (linearizeXmlText fragment)[i]? = some node) :
    op.Fits (linearizeXmlText fragment) i node ∧ op.position ≤ op.stop := by
  obtain ⟨hnonneg, hle, -⟩ := h.apart.inside hop
  refine ⟨⟨hnonneg, fun range hrange => (h.apart.ranges op hop range hrange).2.1, ?_⟩, hle⟩
  intro hkind hi
  cases op with
  | insert position text anchor =>
    subst hi
    exact targetIndex_inside (h.inserts position text anchor hop).2 hnode
  | delete range => cases hkind
  | format range formats => cases hkind

theorem Fresh.foldl_ownOp {nodes : List LinearXmlText} {q' : ℕ} (hfresh : Fresh q node content)
    (hfront : ops.Pairwise fun a b => b.InFront a)
    (hspares : ∀ op ∈ ops, op.SparesPairs node content)
    (hfits : ∀ op ∈ ops, op.Fits nodes i node ∧ op.position ≤ op.stop)
    (hq : ∀ op ∈ ops, op.stop ≤ q) (hle : q' ≤ q) (hq' : ∀ op ∈ ops, q' ≤ op.position) :
    Fresh q' node (ops.foldl (Meridian.ownOp nodes i node) content) := by
  induction ops generalizing q content with
  | nil => exact hfresh.mono hle
  | cons op ops ih =>
    obtain ⟨hhead, htail⟩ := List.pairwise_cons.mp hfront
    obtain ⟨⟨hop, hend⟩, hrest⟩ := List.forall_mem_cons.mp hfits
    obtain ⟨hstop, -⟩ := List.forall_mem_cons.mp hq
    obtain ⟨hpos, hpos'⟩ := List.forall_mem_cons.mp hq'
    obtain ⟨hspare, hspares⟩ := List.forall_mem_cons.mp hspares
    have hbehind : ∀ b ∈ ops, b.stop ≤ op.position.toNat := fun b hb => by
      have := (hhead b hb).stop_le
      omega
    exact ih (hfresh.ownOp hspare hop hend hstop) htail
      (fun b hb => (hspares b hb).of_take ((hrest b hb).2.trans (hbehind b hb)) (hbehind b hb)
        (take_ownOp hfresh hspare hop hstop)) hrest hbehind (by omega) hpos'

theorem onPlaced_concat (nodes : List LinearXmlText) (done : List AiOp) (op : AiOp) :
    (fun i content => onPlaced nodes (fun i node content => ownOp nodes i node content op) i
        (onPlaced nodes (fun i node content => done.foldl (ownOp nodes i node) content) i
          content)) =
      onPlaced nodes fun i node content => (done ++ [op]).foldl (ownOp nodes i node) content := by
  funext i content
  simp only [onPlaced]
  cases nodes[i]? with
  | none => rfl
  | some node => simp only [List.foldl_append, List.foldl_cons, List.foldl_nil]

theorem Unformatted.stop_eq (h : Unformatted fragment) {p : LinearXmlText × XmlText}
    (hp : p ∈ placedTexts fragment) : p.1.stop = p.1.start + p.2.chars.length := by
  rw [(shows_of_mem hp).stop_eq, (unformatted_iff.mp h p hp).length_toString]

theorem Unformatted.fresh (h : Unformatted fragment) {p : LinearXmlText × XmlText}
    (hp : p ∈ placedTexts fragment) {q : ℕ} : Fresh q p.1 p.2 :=
  (unformatted_iff.mp h p hp).fresh (h.stop_eq hp)

/-- The operations of a batch that come before one of it leave the texts fresh in front of it. -/
theorem BatchFits.freshFrom_foldl (h : BatchFits fragment ops) (hplain : Unformatted fragment)
    {op : AiOp} (hop : op ∈ ops) (hdone : ∀ b ∈ done, b ∈ ops)
    (hfirst : done.Pairwise fun a b => b.InFront a) (hlast : ∀ b ∈ done, op.InFront b) :
    FreshFrom op.stop.toNat (onPlaced (linearizeXmlText fragment)
      fun i node content => done.foldl (ownOp (linearizeXmlText fragment) i node) content) 0
        (placedTexts fragment) := by
  intro j p hp
  have hmem := List.mem_of_getElem? hp
  have hnode := (List.getElem?_zip_eq_some.mp hp).1
  have hinside := h.apart.inside hop
  have hbefore := hplain.fresh hmem (q := max (extractFragmentText fragment).length op.stop.toNat)
  rw [Nat.zero_add, onPlaced, hnode]
  refine hbefore.foldl_ownOp hfirst (fun b hb => h.pairs b (hdone b hb) p hmem)
    (fun b hb => h.fits (hdone b hb) hnode) (fun b hb => ?_) (le_max_right _ _) fun b hb => ?_
  · have := (h.apart.inside (hdone b hb)).2.2
    omega
  · have := (hlast b hb).stop_le
    omega

/-- The calls of a batch change every text on its own, by the ranges of the first document. -/
theorem foldl_applyOp (hplain : Unformatted fragment) (h : BatchFits fragment ops)
    (hdone : ∀ op ∈ done, op ∈ ops) (hfront : done.Pairwise fun a b => b.InFront a) :
    done.foldl (applyOp richService) fragment =
      (mapTexts (onPlaced (linearizeXmlText fragment) fun i node content =>
        done.foldl (ownOp (linearizeXmlText fragment) i node) content) fragment 0).1 := by
  induction done using List.reverseRecOn with
  | nil =>
    rw [mapTexts_of_id 0 fragment fun j _ _ content => ?_]
    · rfl
    · rw [onPlaced]
      cases (linearizeXmlText fragment)[j]? <;> rfl
  | append_singleton done op ih =>
    have hop : op ∈ ops := hdone op (by simp)
    have hsub : ∀ b ∈ done, b ∈ ops := fun b hb => hdone b (List.mem_append_left _ hb)
    obtain ⟨hfirst, -, hlast⟩ := List.pairwise_append.mp hfront
    have hinside := h.apart.inside hop
    have hfresh := h.freshFrom_foldl hplain hop hsub hfirst fun b hb => hlast b hb op (by simp)
    rw [List.foldl_append, ih hsub hfirst, List.foldl_cons, List.foldl_nil, ← onPlaced_concat]
    cases op with
    | insert position text anchor =>
      obtain ⟨htext, owner, howner, -⟩ := h.inserts position text anchor hop
      exact insertText_mapTexts hfresh (by simp only [AiOp.stop]; omega)
        (List.ne_nil_of_mem howner) htext anchor
    | delete range =>
      refine deleteText_mapTexts hfresh (by simp only [AiOp.stop]; omega) (Survives ops)
        (h.blocks.imp_right fun hblocks nodes hnodes => hblocks nodes hnodes range hop) ?_
      intro j p hp hsurvives
      have hmem := List.mem_of_getElem? hp
      have hnode := (List.getElem?_zip_eq_some.mp hp).1
      rw [onPlaced, hnode]
      have hall := foldl_ownOp (hplain.fresh hmem (q := (extractFragmentText fragment).length))
        hfront (fun b hb => h.pairs b (hdone b hb) p hmem)
        (fun b hb => h.fits (hdone b hb) hnode) fun b hb => (h.apart.inside (hdone b hb)).2.2
      have hleft := editedText_ne_nil (linearizeXmlText fragment) (i := j) hsurvives hdone
        (hplain.stop_eq hmem)
      rw [← hall, List.foldl_append] at hleft
      exact hleft
    | format range formats =>
      exact forEachXmlTextRange_mapTexts hfresh (by simp only [AiOp.stop]; omega) _

theorem BatchFits.distinctInserts (h : BatchFits fragment ops)
    (hnode : (linearizeXmlText fragment)[i]? = some node) :
    DistinctInserts (ops.filterMap (ownEdit (linearizeXmlText fragment) i node)) := by
  refine List.Pairwise.filterMap _ (fun a b hab e he e' he' hi hi' heq => ?_)
    (h.apart.distinct.imp_of_mem fun ha hb hab => And.intro (h.fits ha hnode).1
      (And.intro (h.fits hb hnode).1 hab))
  obtain ⟨-, -, -, hkind, hat⟩ := ownEdit_spec hab.1 he
  obtain ⟨-, -, -, hkind', hat'⟩ := ownEdit_spec hab.2.1 he'
  refine hab.2.2 (hkind ▸ hi) (hkind' ▸ hi') ?_
  rw [← hat (hkind ▸ hi), ← hat' (hkind' ▸ hi'), heq]

theorem editedText_perm (h : BatchFits fragment ops) (hperm : done.Perm ops)
    (hnode : (linearizeXmlText fragment)[i]? = some node) (content : XmlText) :
    editedText (linearizeXmlText fragment) done i node content =
      editedText (linearizeXmlText fragment) ops i node content := by
  have hformats : formatted done node.start content.chars =
      formatted ops node.start content.chars := by
    refine List.mapIdx_eq_mapIdx_iff.mpr fun k hk => Prod.ext rfl ?_
    refine hperm.foldl_eq' (fun a ha b hb attributes => ?_) _
    by_cases hne : a = b
    · rw [hne]
    · exact formatAt_disjoint h.apart _ (hperm.subset ha) (hperm.subset hb) hne attributes
  rw [editedText, editedText, hformats,
    ← simultaneous_perm (h.distinctInserts hnode) (hperm.filterMap _).symm]

theorem BatchFits.perm (h : BatchFits fragment ops) (hperm : ops.Perm done) :
    BatchFits fragment done where
  apart := h.apart.perm hperm
  pairs op hop := h.pairs op (hperm.mem_iff.mpr hop)
  inserts position text anchor hop := h.inserts position text anchor (hperm.mem_iff.mpr hop)
  blocks := h.blocks.imp_right fun hblocks nodes hnodes range hop hany => by
    obtain ⟨node, hnode, p, hlow, hhigh, hkept⟩ :=
      hblocks nodes hnodes range (hperm.mem_iff.mpr hop) hany
    exact ⟨node, hnode, p, hlow, hhigh, fun range hop => hkept range (hperm.mem_iff.mpr hop)⟩

/-- A batch with a range edits every text of a rich document at once, and leaves the elements
around them as they are. -/
theorem applyOps_onPlaced (hplain : Unformatted fragment) (hrange : hasRangeEdit ops = true)
    (h : BatchFits fragment ops) :
    applyOps richService fragment ops =
      (mapTexts (onPlaced (linearizeXmlText fragment)
        (editedText (linearizeXmlText fragment) ops)) fragment 0).1 := by
  have hordered := perm_orderOpsForApplication ops
  have hfront := pairwise_inFront h.apart hrange
  rw [applyOps, foldl_applyOp hplain h (fun op hop => hordered.subset hop) hfront]
  refine congrArg Prod.fst (mapTexts_congr 0 fragment fun j content hj => ?_)
  rw [Nat.zero_add, onPlaced, onPlaced]
  cases hnode : (linearizeXmlText fragment)[j]? with
  | none => rfl
  | some node =>
    have hplaced : (placedTexts fragment)[j]? = some (node, content) :=
      List.getElem?_zip_eq_some.mpr ⟨hnode, hj⟩
    have hmem := List.mem_of_getElem? hplaced
    dsimp only
    rw [← editedText_perm h hordered hnode]
    exact foldl_ownOp (hplain.fresh hmem) hfront
      (fun op hop => h.pairs op (hordered.subset hop) _ hmem)
      (fun op hop => h.fits (hordered.subset hop) hnode)
      fun op hop => (h.apart.inside (hordered.subset hop)).2.2

/-- However a batch with a range lists its operations, every text of a rich document becomes what
all of them make of it at once, and the elements around the texts stay as they are. -/
theorem applyOps_eachText (hplain : Unformatted fragment) (hrange : hasRangeEdit ops = true)
    (h : BatchFits fragment ops) {ops' : List AiOp} (hperm : ops'.Perm ops) :
    applyOps richService fragment ops' =
      (mapTexts (onPlaced (linearizeXmlText fragment)
        (editedText (linearizeXmlText fragment) ops)) fragment 0).1 := by
  rw [applyOps_onPlaced hplain ((hasRangeEdit_perm hperm).trans hrange) (h.perm hperm.symm)]
  refine congrArg Prod.fst (mapTexts_congr 0 fragment fun j content _ => ?_)
  rw [onPlaced, onPlaced]
  cases hnode : (linearizeXmlText fragment)[0 + j]? with
  | none => rfl
  | some node => exact editedText_perm h hperm hnode content

end Batch

def listDocument : XmlFragment :=
  [.element (js "paragraph") [.text (.ofText (js "abcdef"))],
    .element (js "listItem") [.element (js "paragraph") [.text (.ofText (js "xyz"))]]]

/-- A format, a replacement behind it and an insert into the item. -/
def listBatch : List AiOp :=
  [.format ⟨0, 2, js "ab"⟩ [(js "bold", .bool true)], .delete ⟨2, 4, js "cd"⟩,
    .insert 2 (js "X") none, .format ⟨4, 9, js "ef\n\nx"⟩ [(js "code", .bool true)],
    .insert 10 (js "Y") none]

theorem sparesPairs_listDocument (op : AiOp) :
    letI := itemTexts
    ∀ placed ∈ placedTexts listDocument, op.SparesPairs placed.1 placed.2 := by
  have hnone : ∀ placed ∈ @placedTexts itemTexts listDocument, ∀ c ∈ placed.2.chars,
      isHighSurrogate c.1 = false := by decide
  exact fun placed hplaced k c hc _ => hnone placed hplaced c (List.mem_of_getElem? hc)

theorem batchFits_listBatch :
    letI := itemTexts
    BatchFits listDocument listBatch := by
  have hlength : (@extractFragmentText itemTexts listDocument).length = 11 := by decide
  have hnodes : @linearizeXmlText itemTexts listDocument = [⟨0, 6⟩, ⟨8, 11⟩] := by decide
  have hblocks : @linearizeBlocks itemTexts 0 listDocument = [[⟨0, 6⟩], [⟨8, 11⟩]] := by decide
  refine @BatchFits.mk itemTexts _ _ ?_ (fun op _ => sparesPairs_listDocument op) ?_ (.inr ?_)
  · rw [hlength]
    constructor <;> simp [listBatch, AiOp.range?, AiOp.isInsert, AiOp.position]
  · intro position text anchor hmem
    rw [hnodes]
    simp only [listBatch, List.mem_cons, List.not_mem_nil, reduceCtorEq, AiOp.insert.injEq,
      false_or, or_false] at hmem
    rcases hmem with ⟨rfl, rfl, -⟩ | ⟨rfl, rfl, -⟩
    · exact ⟨by decide, ⟨0, 6⟩, by simp, by simp, by simp⟩
    · exact ⟨by decide, ⟨8, 11⟩, by simp, by simp, by simp⟩
  · intro nodes hnodes range hdelete hany
    rw [hblocks] at hnodes
    simp only [listBatch, List.mem_cons, List.not_mem_nil, reduceCtorEq, AiOp.delete.injEq,
      false_or, or_false] at hdelete hnodes
    subst hdelete
    rcases hnodes with rfl | rfl
    · exact ⟨_, .head _, 0, by simp, by simp, by simp [listBatch]⟩
    · exact absurd hany (by decide)

theorem applyOps_eachText_listBatch :
    letI := itemTexts
    extractFragmentText (applyOps richService listDocument listBatch.reverse) =
      js "<bold>ab</bold>X<code>ef</code>\n\n<code>x</code>yYz" := by
  have hplain : Unformatted listDocument := unformatted_of_all (by decide)
  rw [@applyOps_eachText _ _ itemTexts hplain rfl batchFits_listBatch _ (List.reverse_perm _)]
  decide

end Meridian
