import Meridian.DocumentRequests
import Meridian.Lib.Pages

/-! The list of a user's documents, page by page. Every page is a query of its own, ordered by
`updatedAt` alone; together the pages give every document once exactly when no documents of the
same time stand on both sides of a page's end. -/
namespace Meridian

open Pages

structure PaginationQueryDto where
  page : ℕ := 1
  limit : ℕ := 10
  one_le_page : 1 ≤ page := by decide
  one_le_limit : 1 ≤ limit := by decide
  limit_le : limit ≤ 100 := by decide

def PaginationQueryDto.turnTo (query : PaginationQueryDto) (k : ℕ) : PaginationQueryDto :=
  { query with page := k + 1, one_le_page := Nat.le_add_left 1 k }

namespace Listing

variable {V T : Type*}

structure DocumentRow (V T : Type*) where
  id : V
  title : JsString
  status : DocumentStatus
  createdBy : V
  latestSnapshotId : Option V
  createdAt : T
  updatedAt : T

structure MembershipRow (V : Type*) where
  documentId : V
  userId : V
  role : Role

structure Database (V T : Type*) where
  documents : List (DocumentRow V T)
  memberships : List (MembershipRow V)
  primary : (documents.map DocumentRow.id).Nodup
  unique : (memberships.map fun m => (m.documentId, m.userId)).Nodup

structure DocumentWithRole (V T : Type*) where
  document : DocumentRow V T
  role : Role

structure Meta where
  page : ℕ
  limit : ℕ
  total : ℕ
  totalPages : ℕ
  deriving DecidableEq

structure PaginatedResult (A : Type*) where
  data : List A
  pageMeta : Meta

section Queries

variable [DecidableEq V] (db : Database V T) (userId : V)

def membershipFilter (m : MembershipRow V) (d : DocumentRow V T) : Bool :=
  m.userId = userId && d.status ≠ .deleted

def joined : List (DocumentWithRole V T) :=
  db.memberships.flatMap fun m =>
    (db.documents.filter fun d => m.documentId = d.id && membershipFilter userId m d).map
      fun d => ⟨d, m.role⟩

/-- What `orderBy` leaves to the database: the rows in some order of their times, the latest
first. -/
abbrev Ordered [LinearOrder T] (rows : List (DocumentWithRole V T)) : Prop :=
  Arrangement (fun row => row.document.updatedAt) (joined db userId) rows

/-- One request, for which the database has put the rows in the given order. -/
def listUserDocumentsWithRole (query : PaginationQueryDto) (ordered : List (DocumentWithRole V T)) :
    PaginatedResult (DocumentWithRole V T) :=
  let total := (joined db userId).length
  let totalPages := total ⌈/⌉ query.limit
  { data := (ordered.drop ((query.page - 1) * query.limit)).take query.limit
    pageMeta := ⟨query.page, query.limit, total, totalPages⟩ }

/-- The pages from the first to `totalPages`, each with an order of its own. -/
def allPages (query : PaginationQueryDto) (ordered : ℕ → List (DocumentWithRole V T)) :
    List (PaginatedResult (DocumentWithRole V T)) :=
  (List.range (listUserDocumentsWithRole db userId query []).pageMeta.totalPages).map fun k =>
    listUserDocumentsWithRole db userId (query.turnTo k) (ordered k)

def userDocuments : List (DocumentRow V T) :=
  db.documents.filter fun d => d.status ≠ .deleted &&
    db.memberships.any fun m => m.documentId = d.id && m.userId = userId

/-- The pages give each of these documents once, the latest first, and count them. -/
structure EachOnce [LinearOrder T] (results : List (PaginatedResult (DocumentWithRole V T))) :
    Prop where
  once : ((results.flatMap PaginatedResult.data).map DocumentWithRole.document).Perm
    (userDocuments db userId)
  latestFirst : (results.flatMap PaginatedResult.data).Pairwise
    fun a b => b.document.updatedAt ≤ a.document.updatedAt
  total : ∀ result ∈ results, result.pageMeta.total = (userDocuments db userId).length

variable {db userId}

theorem mem_joined {row : DocumentWithRole V T} : row ∈ joined db userId ↔
    ∃ m ∈ db.memberships, row.document ∈ db.documents ∧ m.documentId = row.document.id ∧
      m.userId = userId ∧ row.document.status ≠ .deleted ∧ row.role = m.role := by
  simp only [joined, membershipFilter, List.mem_flatMap, List.mem_map, List.mem_filter,
    Bool.and_eq_true, decide_eq_true_eq]
  constructor
  · rintro ⟨m, hm, d, ⟨hd, hid, huser, hstatus⟩, rfl⟩
    exact ⟨m, hm, hd, hid, huser, hstatus, rfl⟩
  · rintro ⟨m, hm, hd, hid, huser, hstatus, hrole⟩
    exact ⟨m, hm, row.document, ⟨hd, hid, huser, hstatus⟩, by rw [← hrole]⟩

/-- The unique constraint lets a document come up under one membership only. -/
theorem nodup_joined_documents : ((joined db userId).map DocumentWithRole.document).Nodup := by
  have hdocuments : db.documents.Nodup := db.primary.of_map _
  have hmap : (joined db userId).map DocumentWithRole.document = db.memberships.flatMap fun m =>
      db.documents.filter fun d => m.documentId = d.id && membershipFilter userId m d := by
    simp [joined, List.map_flatMap, Function.comp_def]
  rw [hmap, List.nodup_flatMap]
  refine ⟨fun m _ => hdocuments.filter _, ?_⟩
  refine (List.pairwise_map.mp db.unique).imp fun {m m'} hne d hd hd' => hne ?_
  simp only [List.mem_filter, membershipFilter, Bool.and_eq_true, decide_eq_true_eq] at hd hd'
  exact Prod.ext (hd.2.1.trans hd'.2.1.symm) (hd.2.2.1.trans hd'.2.2.1.symm)

theorem joined_documents_perm :
    ((joined db userId).map DocumentWithRole.document).Perm (userDocuments db userId) := by
  have hdocuments : db.documents.Nodup := db.primary.of_map _
  refine (List.perm_ext_iff_of_nodup nodup_joined_documents (hdocuments.filter _)).mpr fun d => ?_
  simp only [List.mem_map, mem_joined, List.mem_filter, List.any_eq_true, Bool.and_eq_true,
    decide_eq_true_eq]
  constructor
  · rintro ⟨row, ⟨m, hm, hd, hid, huser, hstatus, -⟩, rfl⟩
    exact ⟨hd, hstatus, m, hm, hid, huser⟩
  · rintro ⟨hd, hstatus, m, hm, hid, huser⟩
    exact ⟨⟨d, m.role⟩, ⟨m, hm, hd, hid, huser, hstatus, rfl⟩, rfl⟩

theorem flatMap_allPages (query : PaginationQueryDto) (ordered : ℕ → List (DocumentWithRole V T)) :
    (allPages db userId query ordered).flatMap PaginatedResult.data =
      pages query.limit ordered ((joined db userId).length ⌈/⌉ query.limit) := by
  rw [allPages, List.flatMap_map, pages]
  rfl

variable [LinearOrder T]

theorem steady_joined_iff (b : ℕ) :
    Steady (fun row => row.document.updatedAt) (joined db userId) b ↔
      Steady DocumentRow.updatedAt (userDocuments db userId) b := by
  have hcount : ∀ p : DocumentRow V T → Bool,
      (joined db userId).countP (fun row => p row.document) = (userDocuments db userId).countP p :=
    fun p => (List.countP_map (p := p)).symm.trans (joined_documents_perm.countP_eq p)
  unfold Steady
  simp only [← joined_documents_perm.mem_iff, List.forall_mem_map]
  refine forall₂_congr fun row _ => ?_
  rw [← hcount, ← hcount]

/-- Whatever order the database puts rows of the same time in, the pages give every document
once, the latest first, exactly when no such rows stand on both sides of a page's end. -/
theorem allPages_eachOnce_iff (db : Database V T) (userId : V) (query : PaginationQueryDto) :
    (∀ ordered : ℕ → List (DocumentWithRole V T), (∀ k, Ordered db userId (ordered k)) →
      EachOnce db userId (allPages db userId query ordered)) ↔
    ∀ k, Steady DocumentRow.updatedAt (userDocuments db userId) (k * query.limit) := by
  have hlength : (joined db userId).length = (userDocuments db userId).length := by
    rw [← joined_documents_perm.length_eq, List.length_map]
  have hn : (joined db userId).length ≤
      (joined db userId).length ⌈/⌉ query.limit * query.limit := by
    rw [Nat.mul_comm, ← smul_eq_mul]
    exact le_smul_ceilDiv query.one_le_limit
  constructor
  · intro h k
    by_contra hnot
    rw [← steady_joined_iff] at hnot
    obtain ⟨ordered, hordered, hrepeated⟩ := exists_repeated query.one_le_limit hn hnot
    refine hrepeated ?_
    rw [← flatMap_allPages]
    have hdocuments := (h ordered hordered).once.nodup_iff.mpr
      (joined_documents_perm.nodup_iff.mp nodup_joined_documents)
    exact hdocuments.of_map _
  · intro h ordered hordered
    have hsteady : ∀ k, Steady (fun row : DocumentWithRole V T => row.document.updatedAt)
        (joined db userId) (k * query.limit) := fun k => (steady_joined_iff _).mpr (h k)
    refine ⟨?_, ?_, fun result hresult => ?_⟩
    · rw [flatMap_allPages]
      exact ((pages_perm hordered hsteady hn).map _).trans joined_documents_perm
    · rw [flatMap_allPages]
      exact pages_sorted hordered hsteady _
    · obtain ⟨k, -, rfl⟩ := List.mem_map.mp hresult
      exact hlength

end Queries

/-- Two documents of one user that were last changed at the same time. -/
def firstDocument : DocumentRow ℕ ℕ := ⟨1, js "A", .active, 7, none, 0, 5⟩

def secondDocument : DocumentRow ℕ ℕ := ⟨2, js "B", .active, 7, none, 0, 5⟩

def twoAtOnce : Database ℕ ℕ where
  documents := [firstDocument, secondDocument]
  memberships := [⟨1, 7, .author⟩, ⟨2, 7, .author⟩]
  primary := by decide
  unique := by decide

/-- With pages of one document the first document comes twice and the second one never, if the
database puts the two in another order for the second page. -/
theorem allPages_repeats : ¬ ∀ ordered : ℕ → List (DocumentWithRole ℕ ℕ),
    (∀ k, Ordered twoAtOnce 7 (ordered k)) →
      EachOnce twoAtOnce 7 (allPages twoAtOnce 7 { limit := 1 } ordered) := by
  intro h
  have hone := h (fun k => if k = 0 then [⟨firstDocument, .author⟩, ⟨secondDocument, .author⟩]
    else [⟨secondDocument, .author⟩, ⟨firstDocument, .author⟩]) fun k => ?_
  · exact absurd (hone.once.map DocumentRow.id) (by decide)
  · split
    · exact ⟨.refl _, by simp [firstDocument, secondDocument]⟩
    · exact ⟨.swap _ _ _, by simp [firstDocument, secondDocument]⟩

end Listing

end Meridian
