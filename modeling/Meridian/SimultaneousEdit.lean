import Meridian.DividedPairs
import Meridian.Lib.Simultaneous

/-! Operations whose ranges are apart. The order in which the server applies a list that has a
range puts every operation in front of those before it, so that in whatever order the list names
them the text becomes what all of them make of it at once, if no half of a divided pair is left. -/
namespace Meridian

open Splice

def AiOp.stop : AiOp → ℤ
  | .insert position _ _ => position
  | .delete range | .format range _ => range.stop

/-- The ranges of a list lie in a text of this length, apart from each other, and its inserts
stand at different positions, none of which is inside a range. -/
structure EditsApart (n : ℕ) (ops : List AiOp) : Prop where
  ranges : ∀ op ∈ ops, ∀ range ∈ op.range?,
    0 ≤ range.start ∧ range.start < range.stop ∧ range.stop ≤ n
  disjoint : ops.Pairwise fun a b => ∀ r ∈ a.range?, ∀ r' ∈ b.range?,
    r.stop ≤ r'.start ∨ r'.stop ≤ r.start
  inserts : ∀ op ∈ ops, op.isInsert = true → 0 ≤ op.position ∧ op.position ≤ n
  distinct : ops.Pairwise fun a b =>
    a.isInsert = true → b.isInsert = true → a.position ≠ b.position
  outside : ∀ a ∈ ops, a.isInsert = true → ∀ b ∈ ops, ∀ r ∈ b.range?,
    ¬ (r.start < a.position ∧ a.position < r.stop)

/-- What a list of operations makes of a text at once: every text that it inserts stands at its
position, and what it deletes is gone. -/
def simultaneousEdit (text : JsString) (ops : List AiOp) : JsString :=
  simultaneous (ops.filterMap toEdit) text

/-- An operation that ends before another one, and is no insert at the position of one. -/
structure AiOp.InFront (b a : AiOp) : Prop where
  stop_le : b.stop ≤ a.position
  distinct : a.isInsert = true → b.isInsert = true → a.position ≠ b.position

section Apart

variable {n : ℕ} {ops ops' : List AiOp}

theorem EditsApart.perm (h : EditsApart n ops) (hperm : ops.Perm ops') : EditsApart n ops' where
  ranges op hop := h.ranges op (hperm.mem_iff.mpr hop)
  disjoint := hperm.pairwise h.disjoint fun hab r hr r' hr' => (hab r' hr' r hr).symm
  inserts op hop := h.inserts op (hperm.mem_iff.mpr hop)
  distinct := hperm.pairwise h.distinct fun hab ha hb => (hab hb ha).symm
  outside a ha hi b hb := h.outside a (hperm.mem_iff.mpr ha) hi b (hperm.mem_iff.mpr hb)

theorem hasRangeEdit_perm (hperm : ops.Perm ops') : hasRangeEdit ops = hasRangeEdit ops' := by
  rw [hasRangeEdit, hasRangeEdit, Bool.eq_iff_iff, List.any_eq_true, List.any_eq_true]
  simp only [hperm.mem_iff]

theorem EditsApart.inside (h : EditsApart n ops) {op : AiOp} (hop : op ∈ ops) :
    0 ≤ op.position ∧ op.position ≤ op.stop ∧ op.stop ≤ n := by
  cases op with
  | insert position text anchor =>
    obtain ⟨hnonneg, hle⟩ := h.inserts _ hop rfl
    exact ⟨hnonneg, le_rfl, hle⟩
  | delete range =>
    obtain ⟨hnonneg, hlt, hle⟩ := h.ranges _ hop range rfl
    exact ⟨hnonneg, hlt.le, hle⟩
  | format range attributes =>
    obtain ⟨hnonneg, hlt, hle⟩ := h.ranges _ hop range rfl
    exact ⟨hnonneg, hlt.le, hle⟩

theorem AiOp.stop_of_isInsert {op : AiOp} (h : op.isInsert = true) : op.stop = op.position := by
  cases op with
  | insert position text anchor => rfl
  | delete range => cases h
  | format range attributes => cases h

theorem AiOp.exists_range {op : AiOp} (h : op.isInsert = false) :
    ∃ range, op.range? = some range ∧ op.position = range.start ∧ op.stop = range.stop := by
  cases op with
  | insert position text anchor => cases h
  | delete range => exact ⟨range, rfl, rfl, rfl⟩
  | format range attributes => exact ⟨range, rfl, rfl, rfl⟩

theorem pairwise_inFront (h : EditsApart n ops) (hrange : hasRangeEdit ops = true) :
    (orderOpsForApplication ops).Pairwise fun a b => b.InFront a := by
  have hsorted := pairwise_orderOpsForApplication hrange
  have hordered := h.perm (perm_orderOpsForApplication ops).symm
  have hall := (hsorted.and hordered.disjoint).and hordered.distinct
  refine hall.imp_of_mem fun {a b} ha hb hab => ?_
  obtain ⟨⟨hbefore, hdisjoint⟩, hdistinct⟩ := hab
  refine ⟨?_, hdistinct⟩
  have hle : b.position ≤ a.position := hbefore.elim le_of_lt fun heq => heq.1.le
  cases hkind : b.isInsert with
  | true => exact (AiOp.stop_of_isInsert hkind).trans_le hle
  | false =>
    obtain ⟨range, hr, hstart, hstop⟩ := AiOp.exists_range hkind
    cases hkind' : a.isInsert with
    | true =>
      -- an insert at the start of a range is applied after it
      have hlt : b.position < a.position :=
        hbefore.resolve_right fun heq => heq.2 ⟨hkind', hkind⟩
      have hnot := hordered.outside a ha hkind' b hb range hr
      omega
    | false =>
      obtain ⟨range', hr', hstart', -⟩ := AiOp.exists_range hkind'
      have hlt := (hordered.ranges a ha range' hr').2.1
      have happart := hdisjoint range' hr' range hr
      have hlt' := (hordered.ranges b hb range hr).2.1
      omega

theorem EditsApart.not_inFront (h : EditsApart n ops) {a b : AiOp} (ha : a ∈ ops) (hb : b ∈ ops)
    (hab : b.InFront a) (hba : a.InFront b) : False := by
  have hinside := h.inside ha
  have hinside' := h.inside hb
  have hle := hab.stop_le
  have hle' := hba.stop_le
  have hinsert : ∀ op ∈ ops, op.position = op.stop → op.isInsert = true := by
    intro op hop heq
    by_contra hkind
    obtain ⟨range, hr, hstart, hstop⟩ := AiOp.exists_range (Bool.eq_false_of_not_eq_true hkind)
    have := (h.ranges op hop range hr).2.1
    omega
  exact hab.distinct (hinsert a ha (by omega)) (hinsert b hb (by omega)) (by omega)

/-- A list with ranges that are apart is applied in one order, whatever order it has. -/
theorem orderOpsForApplication_perm (h : EditsApart n ops) (hrange : hasRangeEdit ops = true)
    (hperm : ops'.Perm ops) : orderOpsForApplication ops' = orderOpsForApplication ops := by
  have hmem : ∀ {op}, op ∈ orderOpsForApplication ops ↔ op ∈ ops :=
    (perm_orderOpsForApplication ops).mem_iff
  have hmem' : ∀ {op}, op ∈ orderOpsForApplication ops' ↔ op ∈ ops :=
    ((perm_orderOpsForApplication ops').trans hperm).mem_iff
  refine List.Perm.eq_of_pairwise (fun a b ha hb hab hba =>
    (h.not_inFront (hmem'.mp ha) (hmem.mp hb) hab hba).elim)
    (pairwise_inFront (h.perm hperm.symm) ((hasRangeEdit_perm hperm).trans hrange))
    (pairwise_inFront h hrange) ?_
  exact ((perm_orderOpsForApplication ops').trans hperm).trans
    (perm_orderOpsForApplication ops).symm

end Apart

section Application

variable {Doc : Type*} {service : YjsService Doc} {divided : Doc → AiOp → ℕ → Bool}

theorem extractText_applyOp (hcalls : service.YText divided) (doc : Doc) {op : AiOp}
    (hrange : ∀ range ∈ op.range?, range.start < range.stop) (hpos : 0 ≤ op.position)
    (hstop : op.stop ≤ (service.extractText doc).length) :
    service.extractText (applyOp service doc op) =
      run (toEdit op).toList (service.dividedText divided doc op) := by
  cases op with
  | insert position text anchor => exact hcalls.insert doc position text anchor
  | delete range => exact hcalls.delete doc range (hrange range rfl)
  | format range attributes =>
    obtain ⟨padding, hformat, hbehind⟩ := hcalls.format doc range attributes (hrange range rfl)
    have hlt := hrange range rfl
    obtain rfl : padding = [] := by
      refine not_ne_iff.mp fun hne => ?_
      have := (hbehind hne).2
      simp only [AiOp.position, AiOp.stop] at hpos hstop
      omega
    rw [hformat, List.append_nil]
    rfl

theorem toEdit_spec {op : AiOp} (hpos : 0 ≤ op.position) (hle : op.position ≤ op.stop)
    {e : Edit CodeUnit} (he : toEdit op = some e) :
    (e.position : ℤ) = op.position ∧ (e.stop : ℤ) = op.stop ∧ e.isInsert = op.isInsert := by
  cases op <;> cases he
  all_goals
    simp only [AiOp.position, AiOp.stop, Edit.position, Edit.stop] at *
    exact ⟨by omega, by omega, rfl⟩

theorem inFront_toEdit {a b : AiOp} (h : b.InFront a)
    (ha : 0 ≤ a.position ∧ a.position ≤ a.stop) (hb : 0 ≤ b.position ∧ b.position ≤ b.stop)
    {e e' : Edit CodeUnit} (he : toEdit a = some e) (he' : toEdit b = some e') :
    Splice.InFront e' e := by
  obtain ⟨hpos, -, hkind⟩ := toEdit_spec ha.1 ha.2 he
  obtain ⟨hpos', hstop', hkind'⟩ := toEdit_spec hb.1 hb.2 he'
  obtain ⟨hstop, hdistinct⟩ := h
  refine ⟨by omega, fun hi hi' heq => hdistinct (hkind ▸ hi) (hkind' ▸ hi') (by omega)⟩

/-- Operations each of which is in front of those before it, as edits of the text. -/
theorem extractText_foldl (hcalls : service.YText divided) (doc : Doc) {ops : List AiOp}
    (hranges : ∀ op ∈ ops, ∀ range ∈ op.range?, range.start < range.stop)
    (hfront : ops.Pairwise fun a b => b.InFront a)
    (hops : ∀ op ∈ ops, 0 ≤ op.position ∧ op.position ≤ op.stop ∧
      op.stop ≤ (service.extractText doc).length) :
    service.extractText (ops.foldl (applyOp service) doc) =
      runPasses replacementCharacter (passesFrom service divided (fun _ => toEdit) doc ops)
        (service.extractText doc) := by
  induction ops generalizing doc with
  | nil => rfl
  | cons op ops ih =>
    obtain ⟨hhead, htail⟩ := List.pairwise_cons.mp hfront
    obtain ⟨⟨hpos, hle, hstop⟩, hrest⟩ := List.forall_mem_cons.mp hops
    obtain ⟨hrange, hranges⟩ := List.forall_mem_cons.mp hranges
    have hone := extractText_applyOp hcalls doc hrange hpos hstop
    have hlength : op.position ≤ (service.extractText (applyOp service doc op)).length := by
      rw [hone]
      cases op with
      | insert position text anchor =>
        simp only [toEdit, Option.toList, run_cons, run_nil, Edit.apply, length_insertAt,
          YjsService.dividedText, length_overwrite]
        simp only [AiOp.position, AiOp.stop] at *
        omega
      | delete range =>
        simp only [toEdit, Option.toList, run_cons, run_nil, Edit.apply, length_deleteAt,
          YjsService.dividedText, length_overwrite]
        simp only [AiOp.position, AiOp.stop] at *
        omega
      | format range attributes =>
        rw [toEdit, Option.toList, run_nil, YjsService.dividedText, length_overwrite]
        exact hle.trans hstop
    rw [List.foldl_cons, ih _ hranges htail fun b hb => ?_, hone]
    · rfl
    · obtain ⟨hposb, hleb, -⟩ := hrest b hb
      exact ⟨hposb, hleb, (hhead b hb).stop_le.trans hlength⟩

theorem run_plainEdits_simultaneous {text : JsString} {ops : List AiOp}
    (hrange : hasRangeEdit ops = true) (happart : EditsApart text.length ops) :
    run (plainEdits ops) text = simultaneousEdit text ops := by
  have hdistinct : DistinctInserts (ops.filterMap toEdit) := by
    refine List.Pairwise.filterMap toEdit (fun a b hab e he e' he' hi hi' heq => ?_)
      (happart.distinct.imp_of_mem fun ha hb hab => And.intro (happart.inside ha)
        (And.intro (happart.inside hb) hab))
    obtain ⟨ha, hb, hne⟩ := hab
    obtain ⟨hpos, -, hkind⟩ := toEdit_spec ha.1 ha.2.1 he
    obtain ⟨hpos', -, hkind'⟩ := toEdit_spec hb.1 hb.2.1 he'
    exact hne (hkind ▸ hi) (hkind' ▸ hi') (by omega)
  have hordered := perm_orderOpsForApplication ops
  have hops : ∀ op ∈ orderOpsForApplication ops, 0 ≤ op.position ∧ op.position ≤ op.stop ∧
      op.stop ≤ text.length :=
    fun op hop => happart.inside (hordered.mem_iff.mp hop)
  have hfront := pairwise_inFront happart hrange
  have hedits : (plainEdits ops).Perm (ops.filterMap toEdit) := hordered.filterMap toEdit
  rw [run_eq_simultaneous, simultaneousEdit, simultaneous_perm hdistinct hedits.symm]
  · refine List.Pairwise.filterMap toEdit (fun a b hab e he e' he' => ?_)
      (hfront.imp_of_mem fun ha hb hab => And.intro (hops _ ha) (And.intro (hops _ hb) hab))
    obtain ⟨ha, hb, hab⟩ := hab
    exact inFront_toEdit hab ⟨ha.1, ha.2.1⟩ ⟨hb.1, hb.2.1⟩ he he'
  · intro e he
    obtain ⟨op, hop, hedit⟩ := List.mem_filterMap.mp he
    obtain ⟨hpos, hle, hstop⟩ := hops op hop
    have := (toEdit_spec hpos hle hedit).2.1
    omega

/-- A list with ranges that are apart does to a text what its operations do at once, and so does
every permutation of it, exactly when no half of a divided pair is left. -/
theorem applyOps_simultaneous_iff (hcalls : service.YText divided) (doc : Doc) {ops : List AiOp}
    (hrange : hasRangeEdit ops = true)
    (happart : EditsApart (service.extractText doc).length ops) :
    (service.extractText (applyOps service doc ops) =
        simultaneousEdit (service.extractText doc) ops ∧
      ∀ ops' : List AiOp, ops'.Perm ops →
        service.extractText (applyOps service doc ops') =
          service.extractText (applyOps service doc ops)) ↔
      HalvesGone service divided doc ops := by
  have hsame : ∀ ops' : List AiOp, ops'.Perm ops →
      service.extractText (applyOps service doc ops') =
        service.extractText (applyOps service doc ops) := by
    intro ops' hperm
    rw [applyOps, applyOps, orderOpsForApplication_perm happart hrange hperm]
  have hmem : ∀ {op}, op ∈ orderOpsForApplication ops → op ∈ ops :=
    (perm_orderOpsForApplication ops).mem_iff.mp
  have hafter : service.extractText (applyOps service doc ops) = _ :=
    extractText_foldl hcalls doc
      (fun op hop range hr => (happart.ranges op (hmem hop) range hr).2.1)
      (pairwise_inFront happart hrange) fun op hop => happart.inside (hmem hop)
  rw [and_iff_left hsame, hafter, ← run_plainEdits_simultaneous hrange happart,
    ← origins_look_iff_halvesGone, origins_look, List.map_inj_right fun _ _ => Option.some.inj]
  exact eq_comm

/-- An insert at the start of a delete, a format that ends at another insert, in any order. -/
theorem applyOps_simultaneous_adjacent :
    simultaneousEdit (js "abcdef") [.insert 1 (js "X") none, .format ⟨3, 5, js "de"⟩ [],
      .insert 5 (js "Y") none, .delete ⟨1, 3, js "bc"⟩] = js "aXdeYf" ∧
    itemService.extractText (applyOps itemService (js "abcdef") [.delete ⟨1, 3, js "bc"⟩,
      .insert 5 (js "Y") none, .format ⟨3, 5, js "de"⟩ [], .insert 1 (js "X") none]) =
        js "aXdeYf" := by
  have happart : EditsApart (itemService.extractText (js "abcdef")).length
      [.insert 1 (js "X") none, .format ⟨3, 5, js "de"⟩ [], .insert 5 (js "Y") none,
        .delete ⟨1, 3, js "bc"⟩] := by
    constructor <;> simp [AiOp.range?, AiOp.isInsert, AiOp.position, itemService, js]
  have h := (applyOps_simultaneous_iff itemService_yText (js "abcdef") rfl happart).mpr
    (HalvesGone.of_dividesNone itemService_yText (by decide))
  have hresult : simultaneousEdit (js "abcdef") [.insert 1 (js "X") none,
      .format ⟨3, 5, js "de"⟩ [], .insert 5 (js "Y") none, .delete ⟨1, 3, js "bc"⟩] =
        js "aXdeYf" := by
    decide
  exact ⟨hresult, (h.2 _ (List.reverse_perm _)).trans (h.1.trans hresult)⟩

/-- In a text of an emoji and a letter, a text is put between the halves and the letter goes. -/
theorem applyOps_dividedPair : ¬ ∀ ops : List AiOp, hasRangeEdit ops = true →
    EditsApart (itemService.extractText [0xd83d, 0xde00, 0x62]).length ops →
    itemService.extractText (applyOps itemService [0xd83d, 0xde00, 0x62] ops) =
        simultaneousEdit (itemService.extractText [0xd83d, 0xde00, 0x62]) ops ∧
      ∀ ops' : List AiOp, ops'.Perm ops →
        itemService.extractText (applyOps itemService [0xd83d, 0xde00, 0x62] ops') =
          itemService.extractText (applyOps itemService [0xd83d, 0xde00, 0x62] ops) := by
  intro h
  have happart : EditsApart (itemService.extractText [0xd83d, 0xde00, 0x62]).length
      [.insert 1 (js "X") none, .delete ⟨2, 3, js "b"⟩] := by
    constructor <;> simp [AiOp.range?, AiOp.isInsert, AiOp.position, itemService]
  exact absurd (h _ rfl happart).1 (by decide)

end Application

end Meridian
