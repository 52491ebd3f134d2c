import RecordStore.DbFormat
import RecordStore.Versions

namespace RecordStore.DbIterators

open RecordStore.CFile RecordStore.Outcome RecordStore.ThreeWay RecordStore.Cursors RecordStore.DbFormat RecordStore.Versions

variable {σ : Type}

inductive Direction where
  | forward
  | reverse
  deriving DecidableEq

/-- `DBIter`. Forward, the internal iterator is at the entry that is the current one. In reverse, the entry has been
saved, and the internal iterator is before all entries of its user key. -/
structure DBIter (σ : Type) where
  iter : σ
  corrupted : Bool
  savedKey : List Byte
  savedValue : List Byte
  direction : Direction
  valid : Bool

def newDBIter (iter : σ) : DBIter σ := ⟨iter, false, [], [], .forward, false⟩

section Definitions

variable (userCompare : List Byte → List Byte → Int) (c : Cursor Fault σ (List Byte) (List Byte × List Byte))
  (sequence fuel : Nat)

/-- What the loop of `FindNextUserEntry` does with an entry: it goes on, skipping or not, or it has found its end. -/
def visitNext (entry : List Byte × List Byte) (skipping : Bool) (d : DBIter σ) : Option (Bool × DBIter σ) :=
  match parseInternalKey entry.1 with
  | none => some (skipping, { d with corrupted := true })
  | some ikey =>
    if ikey.sequence ≤ sequence then
      match ikey.type with
      | .deletion => some (true, { d with savedKey := ikey.userKey })
      | .value => if skipping ∧ userCompare ikey.userKey d.savedKey ≤ 0 then some (skipping, d) else none
    else some (skipping, d)

def nextLoop : Nat → Bool → DBIter σ → Except Fault (DBIter σ)
  | 0, _, _ => .error .outOfFuel
  | fuel + 1, skipping, d => do
    let entry ← c.entry d.iter
    match visitNext userCompare sequence entry skipping d with
    | none => .ok { d with valid := true, savedKey := [] }
    | some (skipping, d) => do
      let iter ← c.next d.iter
      if c.valid iter then nextLoop fuel skipping { d with iter := iter }
      else .ok { d with iter := iter, savedKey := [], valid := false }

def findNextUserEntry (skipping : Bool) (d : DBIter σ) : Except Fault (DBIter σ) :=
  if c.valid d.iter ∧ d.direction = .forward then nextLoop userCompare c sequence fuel skipping d else .error .assertFailed

/-- What the loop of `FindPrevUserEntry` does with an entry: it goes on with a value type, or it ends. -/
def visitPrev (entry : List Byte × List Byte) (valueType : ValueType) (d : DBIter σ) : Option (ValueType × DBIter σ) :=
  match parseInternalKey entry.1 with
  | none => some (valueType, { d with corrupted := true })
  | some ikey =>
    if ikey.sequence ≤ sequence then
      if valueType ≠ .deletion ∧ userCompare ikey.userKey d.savedKey < 0 then none
      else
        match ikey.type with
        | .deletion => some (.deletion, { d with savedKey := [], savedValue := [] })
        -- a key that could be parsed has a tag, so `ExtractUserKey` does not fail here
        | .value => some (.value, { d with savedKey := userKeyOf entry.1, savedValue := entry.2 })
    else some (valueType, d)

def prevLoop : Nat → ValueType → DBIter σ → Except Fault (ValueType × DBIter σ)
  | 0, _, _ => .error .outOfFuel
  | fuel + 1, valueType, d => do
    let entry ← c.entry d.iter
    match visitPrev userCompare sequence entry valueType d with
    | none => .ok (valueType, d)
    | some (valueType, d) => do
      let iter ← c.prev d.iter
      if c.valid iter then prevLoop fuel valueType { d with iter := iter } else .ok (valueType, { d with iter := iter })

def prevFinish : ValueType × DBIter σ → DBIter σ
  | (.deletion, d) => { d with valid := false, savedKey := [], savedValue := [], direction := .forward }
  | (.value, d) => { d with valid := true }

def findPrevUserEntry (d : DBIter σ) : Except Fault (DBIter σ) :=
  if d.direction = .reverse then
    if c.valid d.iter then (prevLoop userCompare c sequence fuel .deletion d).map prevFinish
    else .ok (prevFinish (.deletion, d))
  else .error .assertFailed

def intoEntries (iter : σ) : Except Fault σ := if c.valid iter then c.next iter else c.seekToFirst iter

def DBIter.next (d : DBIter σ) : Except Fault (DBIter σ) :=
  if d.valid then
    match d.direction with
    | .reverse => do
      let iter ← intoEntries c d.iter
      if c.valid iter then findNextUserEntry userCompare c sequence fuel true { d with iter := iter, direction := .forward }
      else .ok { d with iter := iter, direction := .forward, valid := false, savedKey := [] }
    | .forward => do
      let entry ← c.entry d.iter
      let savedKey ← extractUserKey entry.1
      findNextUserEntry userCompare c sequence fuel true { d with savedKey := savedKey }
  else .error .assertFailed

/-- The scan of `Prev` for an entry of an earlier user key, and whether there is one. -/
def scanBack (savedKey : List Byte) : Nat → σ → Except Fault (Bool × σ)
  | 0, _ => .error .outOfFuel
  | fuel + 1, iter => do
    let iter ← c.prev iter
    if c.valid iter then do
      let entry ← c.entry iter
      let userKey ← extractUserKey entry.1
      if userCompare userKey savedKey < 0 then .ok (true, iter) else scanBack savedKey fuel iter
    else .ok (false, iter)

def DBIter.prev (d : DBIter σ) : Except Fault (DBIter σ) :=
  if d.valid then
    match d.direction with
    | .forward =>
      if c.valid d.iter then do
        let entry ← c.entry d.iter
        let savedKey ← extractUserKey entry.1
        let (found, iter) ← scanBack userCompare c savedKey fuel d.iter
        if found then
          findPrevUserEntry userCompare c sequence fuel { d with iter := iter, savedKey := savedKey, direction := .reverse }
        else .ok { d with iter := iter, valid := false, savedKey := [], savedValue := [] }
      else .error .assertFailed
    | .reverse => findPrevUserEntry userCompare c sequence fuel d
  else .error .assertFailed

def DBIter.seek (target : List Byte) (d : DBIter σ) : Except Fault (DBIter σ) := do
  let key ← appendInternalKey [] ⟨target, sequence, .value⟩
  let iter ← c.seek key d.iter
  let d := { d with iter := iter, savedKey := key, savedValue := [], direction := .forward }
  if c.valid iter then findNextUserEntry userCompare c sequence fuel false d else .ok { d with valid := false }

def DBIter.seekToFirst (d : DBIter σ) : Except Fault (DBIter σ) := do
  let iter ← c.seekToFirst d.iter
  let d := { d with iter := iter, savedValue := [], direction := .forward }
  if c.valid iter then findNextUserEntry userCompare c sequence fuel false d else .ok { d with valid := false }

def DBIter.seekToLast (d : DBIter σ) : Except Fault (DBIter σ) := do
  let iter ← c.seekToLast d.iter
  findPrevUserEntry userCompare c sequence fuel { d with iter := iter, savedValue := [], direction := .reverse }

def DBIter.entry (d : DBIter σ) : Except Fault (List Byte × List Byte) :=
  if d.valid then
    match d.direction with
    | .forward => do
      let entry ← c.entry d.iter
      let userKey ← extractUserKey entry.1
      .ok (userKey, entry.2)
    | .reverse => .ok (d.savedKey, d.savedValue)
  else .error .assertFailed

def dbIterator : Cursor Fault (DBIter σ) (List Byte) (List Byte × List Byte) where
  valid d := d.valid
  entry := DBIter.entry c
  seekToFirst := DBIter.seekToFirst userCompare c sequence fuel
  seekToLast := DBIter.seekToLast userCompare c sequence fuel
  seek := DBIter.seek userCompare c sequence fuel
  next := DBIter.next userCompare c sequence fuel
  prev := DBIter.prev userCompare c sequence fuel

end Definitions

variable {p target : List Byte → Prop} {userCompare : List Byte → List Byte → Int}
  {c : Cursor Fault σ (List Byte) (List Byte × List Byte)} {sequence : Nat} {S : Set (List Byte × List Byte)}
  {At : σ → Option (List Byte × List Byte) → Prop}

section Entries

def keyOf (e : List Byte × List Byte) : ParsedInternalKey := (parseInternalKey e.1).getD ⟨[], 0, .deletion⟩

def userOf (e : List Byte × List Byte) : List Byte := (keyOf e).userKey

def Before (userCompare : List Byte → List Byte → Int) (a b : List Byte × List Byte) : Prop :=
  internalCompare userCompare a.1 b.1 < 0

def Seen (sequence : Nat) (e : List Byte × List Byte) : Prop := (keyOf e).sequence ≤ sequence

def IsValue (e : List Byte × List Byte) : Prop := (keyOf e).type = .value

def visibleEntries (userCompare : List Byte → List Byte → Int) (sequence : Nat) (S : Set (List Byte × List Byte)) :
    Set (List Byte × List Byte) :=
  visible userCompare (Before userCompare) userOf (Seen sequence) IsValue S

def snapshot (userCompare : List Byte → List Byte → Int) (sequence : Nat) (S : Set (List Byte × List Byte)) :
    Set (List Byte × List Byte) :=
  (fun e => (userOf e, e.2)) '' visibleEntries userCompare sequence S

/-- An internal iterator over entries with internal keys, of which no two are equal. -/
structure Reads (p target : List Byte → Prop) (userCompare : List Byte → List Byte → Int)
    (c : Cursor Fault σ (List Byte) (List Byte × List Byte)) (S : Set (List Byte × List Byte))
    (At : σ → Option (List Byte × List Byte) → Prop) : Prop where
  walks : KeyWalks c (internalCompare userCompare) target S At
  order : Orders p userCompare
  keys : ∀ e ∈ S, ∃ key : ParsedInternalKey, e.1 = internalKeyOf key.userKey (key.sequence * 256 + key.type.code) ∧
    key.sequence ≤ maxSequenceNumber ∧ p key.userKey
  apart : ∀ a ∈ S, ∀ b ∈ S, a ≠ b → internalCompare userCompare a.1 b.1 ≠ 0
  finite : S.Finite

theorem keyOf_eq {e : List Byte × List Byte} {key : ParsedInternalKey}
    (he : e.1 = internalKeyOf key.userKey (key.sequence * 256 + key.type.code)) (hs : key.sequence ≤ maxSequenceNumber) :
    parseInternalKey e.1 = some key ∧ keyOf e = key := by
  have hparse : parseInternalKey e.1 = some key := by
    rw [he]
    exact parseInternalKey_of hs
  exact ⟨hparse, by rw [keyOf, hparse, Option.getD_some]⟩

namespace Reads

variable (h : Reads p target userCompare c S At)
include h

theorem parse {e : List Byte × List Byte} (he : e ∈ S) :
    parseInternalKey e.1 = some (keyOf e) ∧ userKeyOf e.1 = userOf e ∧ p (userOf e) := by
  obtain ⟨key, heq, hs, hp⟩ := h.keys e he
  obtain ⟨hparse, hkey⟩ := keyOf_eq heq hs
  refine ⟨hkey ▸ hparse, ?_, ?_⟩
  · rw [userOf, hkey, heq, userKeyOf_internalKeyOf]
  · rw [userOf, hkey]
    exact hp

theorem extract {e : List Byte × List Byte} (he : e ∈ S) : extractUserKey e.1 = .ok (userOf e) := by
  obtain ⟨key, heq, -⟩ := h.keys e he
  have hlen : 8 ≤ e.1.length := by
    rw [heq, internalKeyOf_length]
    exact Nat.le_add_left 8 _
  rw [extractUserKey_eq hlen, (h.parse he).2.1]

theorem compare_eq {a b : List Byte × List Byte} (ha : a ∈ S) (hb : b ∈ S) : internalCompare userCompare a.1 b.1 =
    if userCompare (userOf a) (userOf b) = 0 then tagCompare (tagOf a.1) (tagOf b.1)
    else userCompare (userOf a) (userOf b) := by
  rw [internalCompare, (h.parse ha).2.1, (h.parse hb).2.1]

theorem grouped : Grouped p userCompare (Before userCompare) userOf S := by
  have horders := internalCompare_orders h.order
  have hp : ∀ e ∈ S, p (userKeyOf e.1) := fun e he => by
    rw [(h.parse he).2.1]
    exact (h.parse he).2.2
  refine ⟨⟨?_, ?_, ?_⟩, h.order, fun e he => (h.parse he).2.2, ?_⟩
  · intro a ha
    unfold Before
    rw [horders.self (hp a ha)]
    exact lt_irrefl 0
  · intro a ha b hb d hd hab hbd
    exact horders.lt_of_lt_of_le (hp a ha) (hp b hb) (hp d hd) hab (le_of_lt hbd)
  · intro a ha b hb hne
    have hswap := horders.swap b.1 a.1 (hp b hb) (hp a ha)
    have hapart := h.apart a ha b hb hne
    unfold Before
    omega
  · intro a ha b hb hab
    unfold Before at hab
    rw [h.compare_eq ha hb] at hab
    split_ifs at hab with hzero
    · exact hzero.le
    · exact hab.le

end Reads

end Entries

section Loops

/-- Where a search forward leaves the iterator. -/
def ForwardAt (At : σ → Option (List Byte × List Byte) → Prop) (d : DBIter σ) : Option (List Byte × List Byte) → Prop
  | none => d.valid = false ∧ ∃ o, At d.iter o
  | some e => d.valid = true ∧ d.direction = .forward ∧ At d.iter (some e)

/-- What has been saved of the entry that the search backward has found so far. -/
def SavedAs (valueType : ValueType) (d : DBIter σ) : Option (List Byte × List Byte) → Prop
  | none => valueType = .deletion
  | some b => valueType = .value ∧ d.savedKey = userOf b ∧ d.savedValue = b.2

def skipOf (skipping : Bool) (savedKey : List Byte) : Option (List Byte) := if skipping then some savedKey else none

namespace Reads

variable (h : Reads p target userCompare c S At)
include h

theorem visitNext_eq (sequence : Nat) {a : List Byte × List Byte} (ha : a ∈ S) (skipping : Bool) (d : DBIter σ) :
    visitNext userCompare sequence a skipping d =
      if (keyOf a).sequence ≤ sequence then
        if (keyOf a).type = .value then
          if skipping ∧ userCompare (userOf a) d.savedKey ≤ 0 then some (skipping, d) else none
        else some (true, { d with savedKey := userOf a })
      else some (skipping, d) := by
  rw [visitNext, (h.parse ha).1]
  simp only [userOf]
  cases (keyOf a).type <;> rfl

theorem mem_of_at {iter : σ} {a : List Byte × List Byte} (hat : At iter (some a)) : a ∈ S := h.walks.mem hat

theorem nextLoop_spec {a : List Byte × List Byte} {d : DBIter σ} (hat : At d.iter (some a)) (hdir : d.direction = .forward)
    {skipping : Bool} (hskip : ∀ k ∈ skipOf skipping d.savedKey, p k)
    (hahead : ∀ x ∈ S, ¬ Before userCompare x a → Seen sequence x →
      ∀ k ∈ skipOf skipping d.savedKey, ¬ userCompare (userOf x) k < 0)
    {fuel : Nat} (hfuel : { x ∈ S | ¬ Before userCompare x a }.ncard ≤ fuel) :
    ∃ d' o, nextLoop userCompare c sequence fuel skipping d = .ok d' ∧ ForwardAt At d' o ∧
      First (Before userCompare) (candidates userCompare (Before userCompare) userOf (Seen sequence) IsValue
        { x ∈ S | ¬ Before userCompare x a } (skipOf skipping d.savedKey)) o := by
  have ha := h.mem_of_at hat
  have hin := h.grouped.inOrder
  induction fuel generalizing a d skipping with
  | zero =>
    have hempty := (Set.ncard_eq_zero (h.finite.subset fun x hx => hx.1)).mp (Nat.le_zero.mp hfuel)
    exact absurd (hempty ▸ (⟨ha, hin.irrefl a ha⟩ : a ∈ { x ∈ S | ¬ Before userCompare x a })) (Set.notMem_empty a)
  | succ fuel ih =>
    -- the search goes on behind the entry
    have hgo : ∀ skipping' (d1 : DBIter σ), visitNext userCompare sequence a skipping d = some (skipping', d1) →
        d1.iter = d.iter → d1.direction = .forward → (∀ k ∈ skipOf skipping' d1.savedKey, p k) →
        (∀ x ∈ S, Before userCompare a x → Seen sequence x →
          ∀ k ∈ skipOf skipping' d1.savedKey, ¬ userCompare (userOf x) k < 0) →
        candidates userCompare (Before userCompare) userOf (Seen sequence) IsValue
            { x ∈ S | ¬ Before userCompare x a } (skipOf skipping d.savedKey) =
          candidates userCompare (Before userCompare) userOf (Seen sequence) IsValue
            { x ∈ S | Before userCompare a x } (skipOf skipping' d1.savedKey) →
        ∃ d' o, nextLoop userCompare c sequence (fuel + 1) skipping d = .ok d' ∧ ForwardAt At d' o ∧
          First (Before userCompare) (candidates userCompare (Before userCompare) userOf (Seen sequence) IsValue
            { x ∈ S | ¬ Before userCompare x a } (skipOf skipping d.savedKey)) o := by
      intro skipping' d1 hvisit hiter hdir1 hskip1 hahead1 hset
      obtain ⟨iter, o, hnext, hat', hfirst⟩ := h.walks.next hat
      rw [hset, nextLoop, h.walks.entry hat, ok_bind]
      simp only [hvisit, hiter, hnext, ok_bind, h.walks.valid hat']
      cases o with
      | none =>
        refine ⟨_, none, rfl, ⟨rfl, none, hat'⟩, ?_⟩
        apply Set.eq_empty_of_forall_notMem
        exact fun x hx => First.notMem hfirst x hx.1
      | some b =>
        obtain ⟨hsame, hless⟩ := next_shrinks hin h.finite ha hfirst
        rw [← hsame]
        refine ih (d := { d1 with iter := iter }) hat' hdir1 hskip1 ?_ (by omega) (h.mem_of_at hat')
        intro x hx hxb
        exact hahead1 x hx ((Set.ext_iff.mp hsame x).mp ⟨hx, hxb⟩).2
    have hvisit := h.visitNext_eq sequence ha skipping d
    have hahead' : ∀ x ∈ S, Before userCompare a x → Seen sequence x →
        ∀ k ∈ skipOf skipping d.savedKey, ¬ userCompare (userOf x) k < 0 :=
      fun x hx hax => hahead x hx (hin.asymm ha hx hax)
    split_ifs at hvisit with hseen hvalue hhidden
    · refine hgo skipping d hvisit rfl hdir hskip hahead' (candidates_pass h.grouped hskip ha fun _ => ?_)
      rw [skipOf, if_pos hhidden.1]
      exact hhidden.2
    · refine ⟨{ d with valid := true, savedKey := [] }, some a, ?_, ⟨rfl, hdir, hat⟩, ?_⟩
      · rw [nextLoop, h.walks.entry hat, ok_bind, hvisit]
      · refine candidates_here h.grouped ha hseen hvalue fun hh => hhidden ?_
        cases skipping with
        | false => exact hh.elim
        | true => exact ⟨rfl, hh⟩
    · refine hgo true { d with savedKey := userOf a } hvisit rfl hdir ?_ ?_ ?_
      · rintro k ⟨⟩
        exact (h.parse ha).2.2
      · rintro x hx hax - k ⟨⟩ hlt
        change userCompare (userOf x) (userOf a) < 0 at hlt
        have hle := h.grouped.grouped a ha x hx hax
        have hswap := h.order.swap (userOf x) (userOf a) (h.parse hx).2.2 (h.parse ha).2.2
        omega
      · exact candidates_deletion h.grouped hskip ha hseen hvalue (hahead a ha (hin.irrefl a ha) hseen)
    · exact hgo skipping d hvisit rfl hdir hskip hahead' (candidates_pass h.grouped hskip ha fun hs => absurd hs hseen)

theorem scanBack_spec {k : List Byte} {a : List Byte × List Byte} {iter : σ} (hat : At iter (some a))
    (hnot : ∀ x ∈ S, ¬ Before userCompare x a → ¬ userCompare (userOf x) k < 0) {fuel : Nat}
    (hfuel : { x ∈ S | ¬ Before userCompare a x }.ncard ≤ fuel) :
    ∃ iter' o, scanBack userCompare c k fuel iter = .ok (o.isSome, iter') ∧ At iter' o ∧
      Last (Before userCompare) { x ∈ S | userCompare (userOf x) k < 0 } o := by
  have ha := h.mem_of_at hat
  have hin := h.grouped.inOrder
  induction fuel generalizing a iter with
  | zero =>
    have hempty := (Set.ncard_eq_zero (h.finite.subset fun x hx => hx.1)).mp (Nat.le_zero.mp hfuel)
    exact absurd (hempty ▸ (⟨ha, hin.irrefl a ha⟩ : a ∈ { x ∈ S | ¬ Before userCompare a x })) (Set.notMem_empty a)
  | succ fuel ih =>
    obtain ⟨iter', o, hprev, hat', hlast⟩ := h.walks.prev hat
    have hbefore : ∀ x ∈ S, userCompare (userOf x) k < 0 → Before userCompare x a := by
      intro x hx hlt
      by_contra hxa
      exact hnot x hx hxa hlt
    rw [scanBack, hprev, ok_bind]
    simp only [h.walks.valid hat']
    cases o with
    | none =>
      refine ⟨iter', none, rfl, hat', ?_⟩
      apply Set.eq_empty_of_forall_notMem
      exact fun x hx => First.notMem hlast x ⟨hx.1, hbefore x hx.1 hx.2⟩
    | some b =>
      have hb := h.mem_of_at hat'
      simp only [Option.isSome_some, if_true, h.walks.entry hat', ok_bind, h.extract hb]
      split
      · rename_i hlt
        exact ⟨iter', some b, rfl, hat', ⟨hb, hlt⟩, fun x hx hne => hlast.2 x ⟨hx.1, hbefore x hx.1 hx.2⟩ hne⟩
      · rename_i hge
        obtain ⟨hsame, hless⟩ := next_shrinks hin.flip h.finite ha hlast
        refine ih hat' ?_ (by omega) hb
        intro x hx hxb hlt
        by_cases he : x = b
        · exact hge (he ▸ hlt)
        · exact hxb (hlast.2 x ⟨hx, hbefore x hx hlt⟩ he)

theorem visitPrev_eq (sequence : Nat) {a : List Byte × List Byte} (ha : a ∈ S) (valueType : ValueType) (d : DBIter σ) :
    visitPrev userCompare sequence a valueType d =
      if (keyOf a).sequence ≤ sequence then
        if valueType ≠ .deletion ∧ userCompare (userOf a) d.savedKey < 0 then none
        else if (keyOf a).type = .value then some (.value, { d with savedKey := userOf a, savedValue := a.2 })
        else some (.deletion, { d with savedKey := [], savedValue := [] })
      else some (valueType, d) := by
  rw [visitPrev, (h.parse ha).1, (h.parse ha).2.1]
  simp only [userOf]
  cases (keyOf a).type <;> rfl

theorem prevLoop_spec {L : Set (List Byte × List Byte)} (hL : L ⊆ S)
    (hlower : ∀ x ∈ S, ∀ y ∈ L, userCompare (userOf x) (userOf y) ≤ 0 → x ∈ L) {a : List Byte × List Byte} (ha : a ∈ L)
    {d : DBIter σ} (hat : At d.iter (some a)) {valueType : ValueType} {o : Option (List Byte × List Byte)}
    (hsaved : SavedAs valueType d o)
    (hfound : Found userCompare (Before userCompare) userOf (Seen sequence) IsValue S L
      { x ∈ L | ¬ Before userCompare a x } o)
    {fuel : Nat} (hfuel : { x ∈ L | ¬ Before userCompare a x }.ncard ≤ fuel) :
    ∃ valueType' d' o' i, prevLoop userCompare c sequence fuel valueType d = .ok (valueType', d') ∧
      d'.direction = d.direction ∧ SavedAs valueType' d' o' ∧ At d'.iter i ∧
      Last (Before userCompare) { e ∈ visibleEntries userCompare sequence S | e ∈ L } o' ∧
      ∀ b ∈ o', Last (Before userCompare) { x ∈ S | Seen sequence x ∧ userCompare (userOf x) (userOf b) < 0 } i := by
  have hin := h.grouped.inOrder
  induction fuel generalizing a d valueType o with
  | zero =>
    have hempty := (Set.ncard_eq_zero (h.finite.subset fun x hx => hL hx.1)).mp (Nat.le_zero.mp hfuel)
    exact absurd (hempty ▸ (⟨ha, hin.irrefl a (hL ha)⟩ : a ∈ { x ∈ L | ¬ Before userCompare a x })) (Set.notMem_empty a)
  | succ fuel ih =>
    have hlow : { x ∈ S | Before userCompare x a } = { x ∈ L | Before userCompare x a } := by
      ext x
      refine ⟨fun hx => ⟨hlower x hx.1 a ha (h.grouped.grouped x hx.1 a (hL ha) hx.2), hx.2⟩, fun hx => ⟨hL hx.1, hx.2⟩⟩
    -- the search goes on before the entry
    have hgo : ∀ valueType1 (d1 : DBIter σ) o1, visitPrev userCompare sequence a valueType d = some (valueType1, d1) →
        d1.iter = d.iter → d1.direction = d.direction → SavedAs valueType1 d1 o1 →
        Found userCompare (Before userCompare) userOf (Seen sequence) IsValue S L { x ∈ L | Before userCompare x a } o1 →
        ∃ valueType' d' o' i, prevLoop userCompare c sequence (fuel + 1) valueType d = .ok (valueType', d') ∧
          d'.direction = d.direction ∧ SavedAs valueType' d' o' ∧ At d'.iter i ∧
          Last (Before userCompare) { e ∈ visibleEntries userCompare sequence S | e ∈ L } o' ∧
          ∀ b ∈ o', Last (Before userCompare) { x ∈ S | Seen sequence x ∧ userCompare (userOf x) (userOf b) < 0 } i := by
      intro valueType1 d1 o1 hvisit hiter hdir hsaved1 hfound1
      obtain ⟨iter, i, hprev, hat', hlast⟩ := h.walks.prev hat
      change Last (Before userCompare) { x ∈ S | Before userCompare x a } i at hlast
      rw [hlow] at hlast
      rw [prevLoop, h.walks.entry hat, ok_bind]
      simp only [hvisit, hiter, hprev, ok_bind, h.walks.valid hat']
      cases i with
      | none =>
        have hempty : { x ∈ L | Before userCompare x a } = ∅ := hlast
        rw [hempty] at hfound1
        refine ⟨valueType1, { d1 with iter := iter }, o1, none, rfl, hdir, by cases o1 <;> exact hsaved1, hat', ?_⟩
        cases o1 with
        | none =>
          refine ⟨?_, fun b hb => by cases hb⟩
          apply Set.eq_empty_of_forall_notMem
          exact fun x hx => hfound1 x hx.2 (Set.notMem_empty x) hx.1
        | some b =>
          obtain ⟨hlast', hset⟩ := hfound1.done h.grouped hL hlower (Set.empty_subset L)
            (fun x hx => absurd hx (Set.notMem_empty x)) (fun x hx => absurd hx (Set.notMem_empty x))
          refine ⟨hlast', ?_⟩
          rintro _ ⟨⟩
          rw [hset]
          exact Set.eq_empty_of_forall_notMem fun x hx => hx.1
      | some b =>
        obtain ⟨hsame, hless⟩ := next_shrinks (hin.flip.mono hL) (h.finite.subset hL) ha hlast
        have hb : b ∈ L := hlast.1.1
        obtain ⟨valueType', d', o', i', hloop, hdir', hrest⟩ := ih (d := { d1 with iter := iter }) (o := o1) hb hat'
          (by cases o1 <;> exact hsaved1) (hsame.symm ▸ hfound1) (by omega)
        exact ⟨valueType', d', o', i', hloop, hdir'.trans hdir, hrest⟩
    have hvisit := h.visitPrev_eq sequence (hL ha) valueType d
    split_ifs at hvisit with hseen hbreak hvalue
    · -- the entry is of an earlier user key than what is saved
      cases o with
      | none => exact absurd hsaved hbreak.1
      | some b =>
        have hlt : userCompare (userOf a) (userOf b) < 0 := hsaved.2.1 ▸ hbreak.2
        have hle : ∀ x ∈ { x ∈ L | ¬ Before userCompare a x }, x = a ∨ Before userCompare x a :=
          fun x hx => ((upTo_iff hin hL ha).mp hx).imp_right And.right
        have hbelow : ∀ x ∈ { x ∈ L | ¬ Before userCompare a x }, ∀ y ∈ L, y ∉ { x ∈ L | ¬ Before userCompare a x } →
            Before userCompare x y := by
          intro x hx y hy hyT
          have hay : Before userCompare a y := by
            by_contra hay
            exact hyT ⟨hy, hay⟩
          obtain rfl | hxa := hle x hx
          · exact hay
          · exact hin.trans x (hL hx.1) a (hL ha) y (hL hy) hxa hay
        have hearlier : ∀ x ∈ { x ∈ L | ¬ Before userCompare a x }, Seen sequence x →
            userCompare (userOf x) (userOf b) < 0 := by
          intro x hx _
          obtain rfl | hxa := hle x hx
          · exact hlt
          · have hxle := h.grouped.grouped x (hL hx.1) a (hL ha) hxa
            have hp : ∀ e ∈ L, p (userOf e) := fun e he => (h.parse (hL he)).2.2
            exact h.order.lt_of_le_of_lt (hp x hx.1) (hp a ha) (hp b hfound.1) hxle hlt
        obtain ⟨hlast, hset⟩ := hfound.done h.grouped hL hlower (fun x hx => hx.1) hbelow hearlier
        refine ⟨valueType, d, some b, some a, ?_, rfl, hsaved, hat, hlast, ?_⟩
        · rw [prevLoop, h.walks.entry hat, ok_bind, hvisit]
        · rintro _ ⟨⟩
          rw [hset]
          exact ⟨⟨⟨ha, hin.irrefl a (hL ha)⟩, hseen⟩, fun x hx hne => (hle x hx.1).resolve_left hne⟩
    · have ho : ∀ b ∈ o, ¬ userCompare (userOf a) (userOf b) < 0 := by
        rintro b ⟨⟩ hlt
        exact hbreak ⟨by rw [hsaved.1]; decide, hsaved.2.1 ▸ hlt⟩
      exact hgo .value _ (some a) hvisit rfl rfl ⟨rfl, rfl, rfl⟩ ((hfound.replace h.grouped hL ha hseen ho).1 hvalue)
    · have ho : ∀ b ∈ o, ¬ userCompare (userOf a) (userOf b) < 0 := by
        rintro b ⟨⟩ hlt
        exact hbreak ⟨by rw [hsaved.1]; decide, hsaved.2.1 ▸ hlt⟩
      exact hgo .deletion _ none hvisit rfl rfl rfl ((hfound.replace h.grouped hL ha hseen ho).2 hvalue)
    · exact hgo valueType d o hvisit rfl rfl hsaved (hfound.pass hin hL ha hseen)

end Reads

end Loops

section Walks

def shown (e : List Byte × List Byte) : List Byte × List Byte := (userOf e, e.2)

/-- Where the iterator is: at an entry that is visible, or before all entries of its user key. -/
def DbAt (userCompare : List Byte → List Byte → Int) (sequence : Nat) (S : Set (List Byte × List Byte))
    (At : σ → Option (List Byte × List Byte) → Prop) (d : DBIter σ) (o : Option (List Byte × List Byte)) : Prop :=
  d.valid = o.isSome ∧ (∃ i, At d.iter i) ∧ ∀ kv ∈ o, ∃ e ∈ visibleEntries userCompare sequence S, shown e = kv ∧
    match d.direction with
    | .forward => At d.iter (some e)
    | .reverse => d.savedKey = kv.1 ∧ d.savedValue = kv.2 ∧
      ∃ i, At d.iter i ∧ Last (Before userCompare) { x ∈ S | Seen sequence x ∧ userCompare (userOf x) kv.1 < 0 } i

theorem ForwardAt.dbAt {d : DBIter σ} {o : Option (List Byte × List Byte)} (hd : ForwardAt At d o)
    (ho : ∀ e ∈ o, e ∈ visibleEntries userCompare sequence S) : DbAt userCompare sequence S At d (o.map shown) := by
  cases o with
  | none => exact ⟨hd.1, hd.2, fun kv hkv => by cases hkv⟩
  | some e =>
    refine ⟨hd.1, ⟨_, hd.2.2⟩, ?_⟩
    rintro _ ⟨⟩
    refine ⟨e, ho e rfl, rfl, ?_⟩
    rw [hd.2.1]
    exact hd.2.2

namespace Reads

variable (h : Reads p target userCompare c S At)
include h

theorem visible_lt {a b : List Byte × List Byte} (ha : a ∈ visibleEntries userCompare sequence S)
    (hb : b ∈ visibleEntries userCompare sequence S) (hab : Before userCompare a b) :
    userCompare (userOf a) (userOf b) < 0 := by
  have hle := h.grouped.grouped a ha.1 b hb.1 hab
  obtain hlt | hzero := hle.lt_or_eq
  · exact hlt
  · have hne : a ≠ b := fun he => h.grouped.inOrder.irrefl a ha.1 (he ▸ hab)
    exact absurd (hb.2.2.2 a ha.1 ha.2.1 hzero hne) (h.grouped.inOrder.asymm ha.1 hb.1 hab)

theorem first_shown {P : List Byte → Prop} {o : Option (List Byte × List Byte)}
    (ho : First (Before userCompare) { e ∈ visibleEntries userCompare sequence S | P (userOf e) } o) :
    First (fun a b => userCompare a.1 b.1 < 0) { kv ∈ snapshot userCompare sequence S | P kv.1 } (o.map shown) := by
  refine ho.image (fun a ha b hb => h.visible_lt ha.1 hb.1) ?_
  ext kv
  constructor
  · rintro ⟨⟨e, he, rfl⟩, hP⟩
    exact ⟨e, ⟨he, hP⟩, rfl⟩
  · rintro ⟨e, ⟨he, hP⟩, rfl⟩
    exact ⟨⟨e, he, rfl⟩, hP⟩

theorem last_shown {P : List Byte → Prop} {o : Option (List Byte × List Byte)}
    (ho : Last (Before userCompare) { e ∈ visibleEntries userCompare sequence S | P (userOf e) } o) :
    Last (fun a b => userCompare a.1 b.1 < 0) { kv ∈ snapshot userCompare sequence S | P kv.1 } (o.map shown) := by
  refine First.image ho (fun a ha b hb => h.visible_lt hb.1 ha.1) ?_
  ext kv
  constructor
  · rintro ⟨⟨e, he, rfl⟩, hP⟩
    exact ⟨e, ⟨he, hP⟩, rfl⟩
  · rintro ⟨e, ⟨he, hP⟩, rfl⟩
    exact ⟨⟨e, he, rfl⟩, hP⟩

theorem snapshot_inOrder (sequence : Nat) :
    InOrder (fun a b => userCompare a.1 b.1 < 0) (snapshot userCompare sequence S) where
  irrefl := by
    rintro _ ⟨e, he, rfl⟩
    simp only [h.order.self (h.parse he.1).2.2]
    exact lt_irrefl 0
  trans := by
    rintro _ ⟨a, ha, rfl⟩ _ ⟨b, hb, rfl⟩ _ ⟨d, hd, rfl⟩ hab hbd
    exact h.order.lt_of_lt_of_le (h.parse ha.1).2.2 (h.parse hb.1).2.2 (h.parse hd.1).2.2 hab hbd.le
  total := by
    rintro _ ⟨a, ha, rfl⟩ _ ⟨b, hb, rfl⟩ hne
    have hab : a ≠ b := fun he => hne (by rw [he])
    exact (h.grouped.inOrder.total a ha.1 b hb.1 hab).imp (h.visible_lt ha hb) (h.visible_lt hb ha)

/-- A search forward from an entry ends at the first entry of the users that are looked for. -/
theorem findNext_spec {fuel : Nat} (hfuel : S.ncard ≤ fuel) (skipping : Bool) {a : List Byte × List Byte} {d : DBIter σ}
    (hat : At d.iter (some a)) (hdir : d.direction = .forward) (hskip : ∀ k ∈ skipOf skipping d.savedKey, p k)
    (hahead : ∀ x ∈ S, ¬ Before userCompare x a → Seen sequence x →
      ∀ k ∈ skipOf skipping d.savedKey, ¬ userCompare (userOf x) k < 0) {G : List Byte → Prop}
    (hG : ∀ x ∈ S, Seen sequence x →
      (x ∈ { x ∈ S | ¬ Before userCompare x a } ∧ ¬ Hidden userCompare (skipOf skipping d.savedKey) (userOf x) ↔
        G (userOf x)))
    (hclosed : ∀ x ∈ S, ∀ y ∈ S, userCompare (userOf x) (userOf y) = 0 → G (userOf y) → G (userOf x)) :
    ∃ d' o', findNextUserEntry userCompare c sequence fuel skipping d = .ok d' ∧ DbAt userCompare sequence S At d' o' ∧
      First (fun a b => userCompare a.1 b.1 < 0) { kv ∈ snapshot userCompare sequence S | G kv.1 } o' := by
  have hless : { x ∈ S | ¬ Before userCompare x a }.ncard ≤ S.ncard := Set.ncard_le_ncard (fun x hx => hx.1) h.finite
  obtain ⟨d', o, hloop, hd', hfirst⟩ := h.nextLoop_spec hat hdir hskip hahead (hless.trans hfuel)
  rw [candidates_eq h.grouped (fun x hx => hx.1) hG hclosed] at hfirst
  refine ⟨d', o.map shown, ?_, hd'.dbAt ?_, h.first_shown hfirst⟩
  · rw [findNextUserEntry, if_pos ⟨h.walks.valid hat, hdir⟩, hloop]
  · rintro e ⟨⟩
    exact hfirst.1.1

theorem findPrev_spec {fuel : Nat} (hfuel : S.ncard ≤ fuel) {P : List Byte → Prop}
    (hlower : ∀ x ∈ S, ∀ y ∈ S, P (userOf y) → userCompare (userOf x) (userOf y) ≤ 0 → P (userOf x))
    {Q : List Byte × List Byte → Prop} (hQ : ∀ x ∈ S, Seen sequence x → P (userOf x) → Q x) {d : DBIter σ}
    (hdir : d.direction = .reverse) {i : Option (List Byte × List Byte)} (hat : At d.iter i)
    (hi : Last (Before userCompare) { x ∈ { x ∈ S | P (userOf x) } | Q x } i) :
    ∃ d' o', findPrevUserEntry userCompare c sequence fuel d = .ok d' ∧ DbAt userCompare sequence S At d' o' ∧
      Last (fun a b => userCompare a.1 b.1 < 0) { kv ∈ snapshot userCompare sequence S | P kv.1 } o' := by
  have hin := h.grouped.inOrder
  obtain ⟨L, hLdef⟩ : ∃ L, L = { x ∈ S | P (userOf x) } := ⟨_, rfl⟩
  have hL : L ⊆ S := hLdef ▸ fun x hx => hx.1
  have hlow : ∀ x ∈ S, ∀ y ∈ L, userCompare (userOf x) (userOf y) ≤ 0 → x ∈ L := by
    subst hLdef
    exact fun x hx y hy hxy => ⟨hx, hlower x hx y hy.1 hy.2 hxy⟩
  have hvisible : { e ∈ visibleEntries userCompare sequence S | e ∈ L } =
      { e ∈ visibleEntries userCompare sequence S | P (userOf e) } := by
    subst hLdef
    ext e
    exact ⟨fun he => ⟨he.1, he.2.2⟩, fun he => ⟨he.1, he.1.1, he.2⟩⟩
  have hQ' : ∀ x ∈ L, Seen sequence x → x ∈ L ∧ Q x := by
    subst hLdef
    exact fun x hx hseen => ⟨hx, hQ x hx.1 hseen hx.2⟩
  rw [← hLdef] at hi
  rw [findPrevUserEntry, if_pos hdir, h.walks.valid hat]
  cases i with
  | none =>
    refine ⟨_, none, rfl, ⟨rfl, ⟨none, hat⟩, fun kv hkv => by cases hkv⟩, ?_⟩
    refine h.last_shown (o := none) ?_
    rw [← hvisible]
    apply Set.eq_empty_of_forall_notMem
    exact fun e he => First.notMem hi e (hQ' e he.2 he.1.2.1)
  | some a =>
    have ha : a ∈ L := hi.1.1
    have hfound : Found userCompare (Before userCompare) userOf (Seen sequence) IsValue S L
        { x ∈ L | ¬ Before userCompare a x } none := by
      refine Found.none_of_all fun x hx hseen => (upTo_iff hin hL ha).mpr ?_
      by_cases he : x = a
      · exact .inl he
      · exact .inr ⟨hx, hi.2 x (hQ' x hx hseen) he⟩
    have hless : { x ∈ L | ¬ Before userCompare a x }.ncard ≤ fuel :=
      (Set.ncard_le_ncard (fun x hx => hL hx.1) h.finite).trans hfuel
    have hnothing : SavedAs .deletion d none := rfl
    obtain ⟨valueType', d', o', i', hloop, hdir', hsaved, hat', hlast, hrest⟩ :=
      h.prevLoop_spec hL hlow ha hat hnothing hfound hless
    rw [hvisible] at hlast
    refine ⟨prevFinish (valueType', d'), o'.map shown, ?_, ?_, h.last_shown hlast⟩
    · rw [hloop]
      rfl
    · cases o' with
      | none =>
        obtain rfl : valueType' = .deletion := hsaved
        exact ⟨rfl, ⟨i', hat'⟩, fun kv hkv => by cases hkv⟩
      | some b =>
        obtain ⟨rfl, hkey, hvalue⟩ := hsaved
        refine ⟨rfl, ⟨i', hat'⟩, ?_⟩
        rintro _ ⟨⟩
        refine ⟨b, hlast.1.1, rfl, ?_⟩
        rw [prevFinish, hdir', hdir]
        exact ⟨hkey, hvalue, i', hat', hrest b rfl⟩

theorem seekToFirst_spec {fuel : Nat} (hfuel : S.ncard ≤ fuel) {d : DBIter σ} {i : Option (List Byte × List Byte)}
    (hat : At d.iter i) :
    ∃ d' o', d.seekToFirst userCompare c sequence fuel = .ok d' ∧ DbAt userCompare sequence S At d' o' ∧
      First (fun a b => userCompare a.1 b.1 < 0) (snapshot userCompare sequence S) o' := by
  obtain ⟨iter, i', hseek, hat', hfirst⟩ := h.walks.seekToFirst hat
  rw [DBIter.seekToFirst, hseek, ok_bind]
  simp only [h.walks.valid hat']
  cases i' with
  | none =>
    obtain rfl : S = ∅ := hfirst
    refine ⟨_, none, rfl, ⟨rfl, ⟨none, hat'⟩, fun kv hkv => by cases hkv⟩, ?_⟩
    apply Set.eq_empty_of_forall_notMem
    rintro _ ⟨e, he, rfl⟩
    exact he.1
  | some a =>
    have hin := h.grouped.inOrder
    have hall : ∀ x ∈ S, ¬ Before userCompare x a := by
      intro x hx hxa
      by_cases he : x = a
      · exact hin.irrefl a hfirst.1 (he ▸ hxa)
      · exact hin.asymm hx hfirst.1 hxa (hfirst.2 x hx he)
    have hnone : ∀ k, k ∉ skipOf false d.savedKey := fun k hk => by cases hk
    obtain ⟨d', o', hfind, hd', hfirst'⟩ := h.findNext_spec hfuel false
      (d := { d with iter := iter, savedValue := [], direction := .forward }) hat' rfl
      (fun k hk => absurd hk (hnone k)) (fun x _ _ _ k hk => absurd hk (hnone k)) (G := fun _ => True)
      (fun x hx _ => iff_of_true ⟨⟨hx, hall x hx⟩, id⟩ trivial) (fun _ _ _ _ _ _ => trivial)
    refine ⟨d', o', hfind, hd', ?_⟩
    simpa only [and_true, Set.ofPred_mem_eq] using hfirst'

theorem before_lookup {k : List Byte} (hs : sequence ≤ maxSequenceNumber) {x : List Byte × List Byte} (hx : x ∈ S)
    (hseen : Seen sequence x) :
    internalCompare userCompare x.1 (internalKeyOf k (sequence * 256 + 1)) < 0 ↔ userCompare (userOf x) k < 0 := by
  obtain ⟨key, heq, hkeys, -⟩ := h.keys x hx
  obtain ⟨-, hkey⟩ := keyOf_eq heq hkeys
  have htag : tagOf x.1 = key.sequence * 256 + key.type.code := by rw [heq, tagOf_of _ (tag_lt hkeys key.type)]
  have hle : key.sequence ≤ sequence := hkey ▸ hseen
  have hcode : key.type.code ≤ 1 := by cases key.type <;> decide
  have hlookup : tagOf (internalKeyOf k (sequence * 256 + 1)) = sequence * 256 + 1 := tagOf_of k (tag_lt hs .value)
  rw [internalCompare, (h.parse hx).2.1, userKeyOf_internalKeyOf, htag, hlookup]
  split_ifs with hzero
  · rw [hzero, tagCompare]
    split_ifs <;> omega
  · exact Iff.rfl

theorem seek_spec {fuel : Nat} (hfuel : S.ncard ≤ fuel) (hs : sequence ≤ maxSequenceNumber) {k : List Byte} (hk : p k)
    (htarget : target (internalKeyOf k (sequence * 256 + 1))) {d : DBIter σ} {i : Option (List Byte × List Byte)}
    (hat : At d.iter i) :
    ∃ d' o', d.seek userCompare c sequence fuel k = .ok d' ∧ DbAt userCompare sequence S At d' o' ∧
      First (fun a b => userCompare a.1 b.1 < 0) { kv ∈ snapshot userCompare sequence S | ¬ userCompare kv.1 k < 0 } o' := by
  have hin := h.grouped.inOrder
  have happend : appendInternalKey [] ⟨k, sequence, .value⟩ = .ok (internalKeyOf k (sequence * 256 + 1)) :=
    appendInternalKey_eq [] hs
  obtain ⟨iter, i', hseek, hat', hfirst⟩ := h.walks.seek _ htarget hat
  rw [DBIter.seek, happend, ok_bind, hseek, ok_bind]
  simp only [h.walks.valid hat']
  have hseen : ∀ x ∈ S, Seen sequence x →
      (x ∈ { b ∈ S | ¬ internalCompare userCompare b.1 (internalKeyOf k (sequence * 256 + 1)) < 0 } ↔
        ¬ userCompare (userOf x) k < 0) :=
    fun x hx hs' => ⟨fun hxT => fun hlt => hxT.2 ((h.before_lookup hs hx hs').mpr hlt),
      fun hge => ⟨hx, fun hlt => hge ((h.before_lookup hs hx hs').mp hlt)⟩⟩
  cases i' with
  | none =>
    refine ⟨_, none, rfl, ⟨rfl, ⟨none, hat'⟩, fun kv hkv => by cases hkv⟩, ?_⟩
    refine h.first_shown (P := fun u => ¬ userCompare u k < 0) (o := none) ?_
    apply Set.eq_empty_of_forall_notMem
    exact fun e he => First.notMem hfirst e ((hseen e he.1.1 he.1.2.1).mpr he.2)
  | some a =>
    have hset : { x ∈ S | ¬ Before userCompare x a } =
        { b ∈ S | ¬ internalCompare userCompare b.1 (internalKeyOf k (sequence * 256 + 1)) < 0 } := by
      refine First.upper hin (fun x hx => hx.1) (fun x hx y hy hxy => ?_) hfirst
      have hp : ∀ e ∈ S, p (userKeyOf e.1) := fun e he => (h.parse he).2.1 ▸ (h.parse he).2.2
      refine ⟨hy, fun hlt => hx.2 ?_⟩
      exact (internalCompare_orders h.order).lt_of_lt_of_le (hp x hx.1) (hp y hy)
        (by rw [userKeyOf_internalKeyOf]; exact hk) hxy hlt.le
    have hnone : ∀ k', k' ∉ skipOf false (internalKeyOf k (sequence * 256 + 1)) := fun k' hk' => by cases hk'
    have hG : ∀ x ∈ S, Seen sequence x → (x ∈ { x ∈ S | ¬ Before userCompare x a } ∧
        ¬ Hidden userCompare (skipOf false (internalKeyOf k (sequence * 256 + 1))) (userOf x) ↔
          ¬ userCompare (userOf x) k < 0) := by
      intro x hx hs'
      rw [hset]
      exact ⟨fun hxT => (hseen x hx hs').mp hxT.1, fun hge => ⟨(hseen x hx hs').mpr hge, id⟩⟩
    have hclosed : ∀ x ∈ S, ∀ y ∈ S, userCompare (userOf x) (userOf y) = 0 → ¬ userCompare (userOf y) k < 0 →
        ¬ userCompare (userOf x) k < 0 := by
      intro x hx y hy hxy hge hlt
      have hyx := (h.order.zero_iff (h.parse hx).2.2 (h.parse hy).2.2).mp hxy
      exact hge (h.order.lt_of_le_of_lt (h.parse hy).2.2 (h.parse hx).2.2 hk hyx.le hlt)
    exact h.findNext_spec hfuel false (G := fun u => ¬ userCompare u k < 0)
      (d := ⟨iter, d.corrupted, internalKeyOf k (sequence * 256 + 1), [], .forward, d.valid⟩) hat' rfl
      (fun k' hk' => absurd hk' (hnone k')) (fun x _ _ _ k' hk' => absurd hk' (hnone k')) hG hclosed

theorem seekToLast_spec {fuel : Nat} (hfuel : S.ncard ≤ fuel) {d : DBIter σ} {i : Option (List Byte × List Byte)}
    (hat : At d.iter i) :
    ∃ d' o', d.seekToLast userCompare c sequence fuel = .ok d' ∧ DbAt userCompare sequence S At d' o' ∧
      Last (fun a b => userCompare a.1 b.1 < 0) (snapshot userCompare sequence S) o' := by
  obtain ⟨iter, i', hseek, hat', hlast⟩ := h.walks.seekToLast hat
  have hlast' : Last (Before userCompare) { x ∈ { x ∈ S | True } | True } i' := by
    simp only [and_true, Set.ofPred_mem_eq]
    exact hlast
  obtain ⟨d', o', hfind, hd', hresult⟩ := h.findPrev_spec hfuel (P := fun _ => True) (Q := fun _ => True)
    (d := { d with iter := iter, savedValue := [], direction := .reverse })
    (fun _ _ _ _ _ _ => trivial) (fun x _ (_ : Seen sequence x) _ => trivial) rfl hat' hlast'
  refine ⟨d', o', ?_, hd', ?_⟩
  · rw [DBIter.seekToLast, hseek, ok_bind, hfind]
  · simpa only [and_true, Set.ofPred_mem_eq] using hresult

theorem findNext_skipping {fuel : Nat} (hfuel : S.ncard ≤ fuel) {k : List Byte} (hk : p k) {a : List Byte × List Byte}
    {d : DBIter σ} (hat : At d.iter (some a)) (hdir : d.direction = .forward) (hsaved : d.savedKey = k)
    (hahead : ∀ x ∈ S, ¬ Before userCompare x a → Seen sequence x → ¬ userCompare (userOf x) k < 0)
    (hbehind : ∀ x ∈ S, Seen sequence x → userCompare k (userOf x) < 0 → ¬ Before userCompare x a) :
    ∃ d' o', findNextUserEntry userCompare c sequence fuel true d = .ok d' ∧ DbAt userCompare sequence S At d' o' ∧
      First (fun a b => userCompare a.1 b.1 < 0) { kv ∈ snapshot userCompare sequence S | userCompare k kv.1 < 0 } o' := by
  subst hsaved
  have hskip : ∀ k' ∈ skipOf true d.savedKey, k' = d.savedKey := fun k' hk' => (Option.some.inj hk').symm
  refine h.findNext_spec hfuel true (G := fun u => userCompare d.savedKey u < 0) hat hdir
    (fun k' hk' => hskip k' hk' ▸ hk) (fun x hx hxa hs k' hk' => hskip k' hk' ▸ hahead x hx hxa hs) ?_ ?_
  · intro x hx hs
    have hswap := h.order.swap d.savedKey (userOf x) hk (h.parse hx).2.2
    constructor
    · rintro ⟨-, hhidden⟩
      exact hswap.mpr (not_le.mp hhidden)
    · exact fun hlt => ⟨⟨hx, hbehind x hx hs hlt⟩, not_le.mpr (hswap.mp hlt)⟩
  · intro x hx y hy hxy hlt
    have hyx := (h.order.zero_iff (h.parse hx).2.2 (h.parse hy).2.2).mp hxy
    exact h.order.lt_of_lt_of_le hk (h.parse hy).2.2 (h.parse hx).2.2 hlt hyx.le

theorem not_user_lt {a x : List Byte × List Byte} (ha : a ∈ S) (hx : x ∈ S) (hxa : ¬ Before userCompare x a) :
    ¬ userCompare (userOf x) (userOf a) < 0 := by
  intro hlt
  obtain rfl | hax := (from_iff h.grouped.inOrder ha).mp ⟨hx, hxa⟩
  · rw [h.order.self (h.parse hx).2.2] at hlt
    exact lt_irrefl 0 hlt
  · have hle := h.grouped.grouped a ha x hx hax.2
    have hswap := h.order.swap (userOf x) (userOf a) (h.parse hx).2.2 (h.parse ha).2.2
    omega

theorem not_before {a x : List Byte × List Byte} (ha : a ∈ S) (hx : x ∈ S) (hlt : userCompare (userOf a) (userOf x) < 0) :
    ¬ Before userCompare x a := by
  intro hxa
  have hle := h.grouped.grouped x hx a ha hxa
  have hswap := h.order.swap (userOf a) (userOf x) (h.parse ha).2.2 (h.parse hx).2.2
  omega

/-- From before the entries of a user key the internal iterator goes to the first entry behind those that are seen
before them. -/
theorem intoEntries_spec {iter : σ} {i : Option (List Byte × List Byte)} (hat : At iter i) :
    ∃ iter' i', intoEntries c iter = .ok iter' ∧ At iter' i' ∧
      First (Before userCompare) { x ∈ S | ∀ b ∈ i, Before userCompare b x } i' := by
  rw [intoEntries, h.walks.valid hat]
  cases i with
  | none =>
    obtain ⟨iter', i', hseek, hat', hfirst⟩ := h.walks.seekToFirst hat
    refine ⟨iter', i', hseek, hat', ?_⟩
    simp only [Option.not_mem_none, false_imp_iff, implies_true, and_true, Set.ofPred_mem_eq]
    exact hfirst
  | some b =>
    obtain ⟨iter', i', hnext, hat', hfirst⟩ := h.walks.next hat
    refine ⟨iter', i', hnext, hat', ?_⟩
    simp only [Option.mem_def, Option.some.injEq, forall_eq']
    exact hfirst

theorem next_spec {fuel : Nat} (hfuel : S.ncard ≤ fuel) {d : DBIter σ} {kv : List Byte × List Byte}
    (hd : DbAt userCompare sequence S At d (some kv)) :
    ∃ d' o', d.next userCompare c sequence fuel = .ok d' ∧ DbAt userCompare sequence S At d' o' ∧
      First (fun a b => userCompare a.1 b.1 < 0)
        { x ∈ snapshot userCompare sequence S | userCompare kv.1 x.1 < 0 } o' := by
  have hin := h.grouped.inOrder
  obtain ⟨hvalid, -, hd⟩ := hd
  obtain ⟨e, he, rfl, hd⟩ := hd kv rfl
  have hp := (h.parse he.1).2.2
  simp only [shown]
  rw [DBIter.next, if_pos (show d.valid = true from hvalid)]
  cases hdir : d.direction with
  | forward =>
    rw [hdir] at hd
    simp only [h.walks.entry hd, ok_bind, h.extract he.1]
    exact h.findNext_skipping (d := { d with savedKey := userOf e, direction := .forward }) hfuel hp hd rfl rfl
      (fun x hx hxe _ => h.not_user_lt he.1 hx hxe) (fun x hx _ hlt => h.not_before he.1 hx hlt)
  | reverse =>
    rw [hdir] at hd
    obtain ⟨hkey, -, i, hat, hlast⟩ := hd
    obtain ⟨iter', i', hinto, hat', hfirst⟩ := h.intoEntries_spec hat
    simp only [hinto, ok_bind, h.walks.valid hat']
    -- the entries of the user key and of later ones are all behind what is seen before them
    have hbehind : ∀ x ∈ S, ¬ userCompare (userOf x) (userOf e) < 0 → ∀ b ∈ i, Before userCompare b x := by
      rintro x hx hge b ⟨⟩
      have hb : b ∈ S := hlast.1.1
      by_contra hbx
      have hle := not_lt.mp (h.not_user_lt hx hb hbx)
      have hswap := h.order.swap (userOf b) (userOf x) (h.parse hb).2.2 (h.parse hx).2.2
      have hzero := h.order.zero_iff (h.parse hb).2.2 (h.parse hx).2.2
      refine hge (h.order.lt_of_le_of_lt (h.parse hx).2.2 (h.parse hb).2.2 hp ?_ hlast.1.2.2)
      omega
    have hself : ¬ userCompare (userOf e) (userOf e) < 0 := by
      rw [h.order.self hp]
      exact lt_irrefl 0
    cases i' with
    | none => exact (hfirst.notMem e ⟨he.1, hbehind e he.1 hself⟩).elim
    | some a =>
      have hset : { x ∈ S | ¬ Before userCompare x a } = { x ∈ S | ∀ b ∈ i, Before userCompare b x } := by
        refine First.upper hin (fun x hx => hx.1) (fun x hx y hy hxy => ?_) hfirst
        refine ⟨hy, ?_⟩
        rintro b ⟨⟩
        exact hin.trans b hlast.1.1 x hx.1 y hy (hx.2 b rfl) hxy
      refine h.findNext_skipping (d := { d with iter := iter', direction := .forward }) hfuel hp hat' rfl hkey ?_ ?_
      · intro x hx hxa hseen hlt
        have hx' := (Set.ext_iff.mp hset x).mp ⟨hx, hxa⟩
        cases i with
        | none => exact First.notMem hlast x ⟨hx, hseen, hlt⟩
        | some b =>
          have hbx := hx'.2 b rfl
          by_cases heq : x = b
          · exact hin.irrefl b hlast.1.1 (heq ▸ hbx)
          · exact hin.asymm hlast.1.1 hx hbx (hlast.2 x ⟨hx, hseen, hlt⟩ heq)
      · intro x hx _ hlt
        have hswap := h.order.swap (userOf e) (userOf x) hp (h.parse hx).2.2
        exact ((Set.ext_iff.mp hset x).mpr ⟨hx, hbehind x hx (by omega)⟩).2

theorem prev_spec {fuel : Nat} (hfuel : S.ncard ≤ fuel) {d : DBIter σ} {kv : List Byte × List Byte}
    (hd : DbAt userCompare sequence S At d (some kv)) :
    ∃ d' o', d.prev userCompare c sequence fuel = .ok d' ∧ DbAt userCompare sequence S At d' o' ∧
      Last (fun a b => userCompare a.1 b.1 < 0)
        { x ∈ snapshot userCompare sequence S | userCompare x.1 kv.1 < 0 } o' := by
  have hin := h.grouped.inOrder
  obtain ⟨hvalid, -, hd⟩ := hd
  obtain ⟨e, he, rfl, hd⟩ := hd kv rfl
  have hp := (h.parse he.1).2.2
  have hlower : ∀ x ∈ S, ∀ y ∈ S, userCompare (userOf y) (userOf e) < 0 → userCompare (userOf x) (userOf y) ≤ 0 →
      userCompare (userOf x) (userOf e) < 0 :=
    fun x hx y hy hye hxy => h.order.lt_of_le_of_lt (h.parse hx).2.2 (h.parse hy).2.2 hp hxy hye
  simp only [shown]
  rw [DBIter.prev, if_pos (show d.valid = true from hvalid)]
  cases hdir : d.direction with
  | forward =>
    rw [hdir] at hd
    have hless : { x ∈ S | ¬ Before userCompare e x }.ncard ≤ fuel :=
      (Set.ncard_le_ncard (fun x hx => hx.1) h.finite).trans hfuel
    obtain ⟨iter', i, hscan, hat', hlast⟩ := h.scanBack_spec hd (fun x hx hxe => h.not_user_lt he.1 hx hxe) hless
    simp only [h.walks.valid hd, Option.isSome_some, if_true, h.walks.entry hd, ok_bind, h.extract he.1, hscan]
    cases i with
    | none =>
      refine ⟨_, none, rfl, ⟨rfl, ⟨none, hat'⟩, fun kv hkv => by cases hkv⟩, ?_⟩
      refine h.last_shown (P := fun u => userCompare u (userOf e) < 0) (o := none) ?_
      apply Set.eq_empty_of_forall_notMem
      exact fun x hx => First.notMem hlast x ⟨hx.1.1, hx.2⟩
    | some b =>
      refine h.findPrev_spec (d := { d with iter := iter', savedKey := userOf e, direction := .reverse }) hfuel
        (P := fun u => userCompare u (userOf e) < 0) (Q := fun _ => True) hlower (fun _ _ _ _ => trivial) rfl hat' ?_
      simpa only [and_true, Set.ofPred_mem_eq] using hlast
  | reverse =>
    rw [hdir] at hd
    obtain ⟨-, -, i, hat, hlast⟩ := hd
    refine h.findPrev_spec hfuel (P := fun u => userCompare u (userOf e) < 0) (Q := Seen sequence) hlower
      (fun x _ hseen _ => hseen) hdir hat ?_
    have hset : { x ∈ S | Seen sequence x ∧ userCompare (userOf x) (userOf e) < 0 } =
        { x ∈ { x ∈ S | userCompare (userOf x) (userOf e) < 0 } | Seen sequence x } := by
      ext x
      exact ⟨fun hx => ⟨⟨hx.1, hx.2.2⟩, hx.2.1⟩, fun hx => ⟨hx.1.1, hx.2, hx.1.2⟩⟩
    rw [← hset]
    exact hlast

/-- The iterator goes through the keys and values of its snapshot, in the order of the user keys. -/
theorem snapshot_walks {fuel : Nat} (hfuel : S.ncard ≤ fuel) (hs : sequence ≤ maxSequenceNumber) :
    KeyWalks (dbIterator userCompare c sequence fuel) userCompare
      (fun k => p k ∧ target (internalKeyOf k (sequence * 256 + 1))) (snapshot userCompare sequence S)
      (DbAt userCompare sequence S At) where
  valid hd := hd.1
  entry := by
    intro d kv hd
    obtain ⟨hvalid, -, hd⟩ := hd
    obtain ⟨e, he, rfl, hd⟩ := hd kv rfl
    simp only [dbIterator, DBIter.entry]
    rw [if_pos (show d.valid = true from hvalid)]
    cases hdir : d.direction with
    | forward =>
      rw [hdir] at hd
      simp only [h.walks.entry hd, ok_bind, h.extract he.1, shown]
    | reverse =>
      rw [hdir] at hd
      simp only [hd.1, hd.2.1, Prod.mk.eta]
  mem := by
    intro d kv hd
    obtain ⟨e, he, heq, -⟩ := hd.2.2 kv rfl
    exact ⟨e, he, heq⟩
  seekToFirst := fun ⟨_, ⟨_, hat⟩, _⟩ => h.seekToFirst_spec hfuel hat
  seekToLast := fun ⟨_, ⟨_, hat⟩, _⟩ => h.seekToLast_spec hfuel hat
  seek := fun k hk ⟨_, ⟨_, hat⟩, _⟩ => h.seek_spec hfuel hs hk.1 hk.2 hat
  next := h.next_spec hfuel
  prev := h.prev_spec hfuel

end Reads

end Walks

end RecordStore.DbIterators
