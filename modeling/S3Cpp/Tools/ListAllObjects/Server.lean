import S3Cpp.Library.Delimited
import S3Cpp.Tools.ListAllObjects.Worker

namespace S3Cpp.Tools.ListAllObjects

open Aws.S3 Aws.S3.Client Library.Population Library.Delimited

def slash : UInt8 := 47

-- The pages that a server answers one request after the other with, up to one
-- without a next token.
inductive Chain (answer : Option Str → Page) : Option Str → List Page → Prop
  | last {token : Option Str} (h : (answer token).nextToken = none) : Chain answer token [answer token]
  | more {token : Option Str} {next : Str} {pages : List Page}
      (h : (answer token).nextToken = some next) (hrest : Chain answer (some next) pages) :
      Chain answer token (answer token :: pages)

-- The pages of a prefix: the keys directly below it, the prefixes below it, each
-- once, and on no page a next token equal to the one it echoes.
structure Listing (keys : List Str) (p : Str) (pages : List Page) : Prop where
  objects : (pages.flatMap fun page => page.contents.map Object.Key).Perm ((direct slash keys p).map some)
  prefixes : (pages.flatMap fun page => page.commonPrefixes.map CommonPrefix.Prefix).Perm
    ((below slash keys p).map some)
  fresh : ∀ page ∈ pages, ∀ token, page.token = some token → page.nextToken ≠ some token

-- A server that lists any set of keys faithfully.
structure Server where
  keys : List Str
  nodup : keys.Nodup
  answer : Str → Option Str → Page
  faithful : ∀ p, ∃ pages, Chain (answer p) none pages ∧ Listing keys p pages

theorem repeatsToken_eq_false {page : Page}
    (h : ∀ token, page.token = some token → page.nextToken ≠ some token) : page.repeatsToken = false := by
  cases htoken : page.token with
  | none => simp [Page.repeatsToken, htoken]
  | some token =>
      have hne : ¬ some token = page.nextToken := fun heq => h token htoken heq.symm
      simp [Page.repeatsToken, htoken, hne]

theorem Chain.unique {answer : Option Str → Page} {token : Option Str} {pages other : List Page}
    (h : Chain answer token pages) (h' : Chain answer token other) : pages = other := by
  induction h generalizing other with
  | last hlast =>
      cases h' with
      | last => rfl
      | more hnext => simp [hlast] at hnext
  | more hnext hrest ih =>
      cases h' with
      | last hlast => simp [hnext] at hlast
      | more hnext' hrest' =>
          obtain rfl := Option.some.inj (hnext.symm.trans hnext')
          rw [ih hrest']

-- What a response to a request of such a server may be: a failure that is
-- tried again, or the page.
def Server.answers (server : Server) (config : Config) (path : CommonPrefix) (token : Option Str)
    (retries : Nat) (response : Response) : Bool :=
  match request config.apiVersion response with
  | .value page => page = server.answer (path.Prefix.getD []) token
  | .unexpected _ => retries < maxRetries
  | .exception _ => false

-- A count over calls, keys and prefixes of which each prefix's share is that of
-- its call, of the keys directly below it and of the prefixes below it.
structure Ledger (keys : List Str) where
  call : Option Str → Nat
  key : Option Str → Nat
  share : Option Str → Nat
  balance : ∀ path, share path = call path + (total key ((direct slash keys (path.getD [])).map some) +
    total share ((below slash keys (path.getD [])).map some))

namespace Ledger

variable {keys : List Str} (ledger : Ledger keys)

def prefixDebt (page : Page) : Nat := total ledger.share (page.commonPrefixes.map CommonPrefix.Prefix)

def pageDebt (page : Page) : Nat :=
  total ledger.key (page.contents.map Object.Key) + ledger.prefixDebt page

theorem pages_debt {p : Str} {pages : List Page} (h : Listing keys p pages) :
    total ledger.pageDebt pages =
      total ledger.key ((direct slash keys p).map some) + total ledger.share ((below slash keys p).map some) := by
  rw [← total_perm _ h.objects, ← total_perm _ h.prefixes, total_flatMap, total_flatMap, ← total_add]
  rfl

end Ledger

section Counts

variable {keys : List Str}

theorem total_map_some (f : Option Str → Nat) (l : List Str) :
    total f (l.map some) = total (fun x => f (some x)) l := total_map f some l

-- The keys, one at a time.
def keyLedger (hkeys : keys.Nodup) (x : Str) (hx : x ∈ keys) : Ledger keys where
  call _ := 0
  key y := if y = some x then 1 else 0
  share path := if path.getD [] <+: x then 1 else 0
  balance path := by
    have hsplit := prefix_split (d := slash) (p := path.getD []) hx List.prefix_rfl
    rw [hsplit, Nat.zero_add, total_map_some, total_map_some]
    simp only [Option.some.injEq, Option.getD_some]
    rw [total_count, count_direct hkeys hx]

-- What is not a key is never counted.
def otherLedger (y : Option Str) (hy : ∀ x ∈ keys, y ≠ some x) : Ledger keys where
  call _ := 0
  key z := if z = y then 1 else 0
  share _ := 0
  balance path := by
    have hnone : total (fun x => if some x = y then 1 else 0) (direct slash keys (path.getD [])) = 0 :=
      (total_eq_zero_iff _ _).mpr fun x hx => if_neg fun h => hy x (List.mem_of_mem_filter hx) h.symm
    rw [total_map_some, hnone, total_zero]

-- The calls for a prefix of a key, one prefix at a time.
def prefixLedger (q : Str) (hq : q ∈ prefixes slash keys) : Ledger keys where
  call path := if path = some q then 1 else 0
  key _ := 0
  share path := if path.getD [] <+: q then 1 else 0
  balance path := by
    obtain ⟨⟨k, hk, hqk⟩, hlast⟩ := mem_prefixes_iff.mp hq
    have hcall : Direct slash (path.getD []) q ↔ path = some q := by
      rw [direct_iff_eq hlast]
      cases path with
      | none =>
          refine iff_of_false ?_ (by simp)
          rintro rfl
          simp at hlast
      | some p => simp
    rw [prefix_split (d := slash) (p := path.getD []) hk hqk, total_zero, Nat.zero_add, total_map_some]
    simp only [hcall, Option.getD_some]

-- The calls for anything else: one for the root, which has no prefix.
def otherCallLedger (y : Option Str) (hy : ∀ q ∈ prefixes slash keys, y ≠ some q) : Ledger keys where
  call path := if path = y then 1 else 0
  key _ := 0
  share path := if path = y then 1 else 0
  balance path := by
    have hnone : total (fun q => if some q = y then 1 else 0) (below slash keys (path.getD [])) = 0 :=
      (total_eq_zero_iff _ _).mpr fun q hq => if_neg fun h => hy q (mem_prefixes_of_mem_below hq) h.symm
    rw [total_zero, total_map_some, hnone]
    rfl

end Counts

end S3Cpp.Tools.ListAllObjects
