/-
# The order of the keys

The structure checker can be told to refuse a dictionary whose keys do not ascend.  A decoder that
accepts a value without this check accepts the same value with it, and with anything behind it, if
and only if the keys ascend in every dictionary of the value, also in those it skips.

* `Tree` are the values, `Tree.Spells` their bytes, `Tree.ordered` says that all keys ascend;
* `Decoder.extend` is a decoder with more bytes behind its own that checks the order;
* `Tree.OpenedAt.drop_extend`: what it makes of a value that the decoder has skipped;
* `Decode.Stable`: what it makes of a value that was decoded, through fields and dictionaries;
* `fromBencodeFirst_append_iff`: the two entry points.
-/
import Dorodoro.BencodeReading
import Dorodoro.SoundDecoders

namespace Bendy

/-! ## Trees -/

/-- A value; an integer is the numeral it is written with. -/
inductive Tree where
  | bytes (s : Bytes)
  | integer (n : Bytes)
  | list (items : List Tree)
  | dict (pairs : List (Bytes × Tree))

mutual

/-- The bytes of a value. -/
def Tree.Spells : Tree → Bytes → Prop
  | .bytes s, raw => Text s raw
  | .integer n, raw => Numeral n ∧ raw = ascii 'i' :: n ++ [ascii 'e']
  | .list items, raw => ∃ body, ItemsSpell items body ∧ raw = ascii 'l' :: body ++ [ascii 'e']
  | .dict pairs, raw => ∃ body, PairsSpell pairs body ∧ raw = ascii 'd' :: body ++ [ascii 'e']

@[inherit_doc Tree.Spells]
def ItemsSpell : List Tree → Bytes → Prop
  | [], raw => raw = []
  | t :: items, raw => ∃ item rest, t.Spells item ∧ ItemsSpell items rest ∧ raw = item ++ rest

@[inherit_doc Tree.Spells]
def PairsSpell : List (Bytes × Tree) → Bytes → Prop
  | [], raw => raw = []
  | (k, t) :: pairs, raw => ∃ key value rest, Text k key ∧ t.Spells value ∧
      PairsSpell pairs rest ∧ raw = key ++ value ++ rest

end

mutual

/-- In every dictionary the keys ascend. -/
def Tree.ordered : Tree → Bool
  | .bytes _ => true
  | .integer _ => true
  | .list items => itemsOrdered items
  | .dict pairs => pairsOrdered none pairs

@[inherit_doc Tree.ordered]
def itemsOrdered : List Tree → Bool
  | [] => true
  | t :: items => t.ordered && itemsOrdered items

/-- The keys ascend, from the last one that was read on, and so they do in the values. -/
def pairsOrdered : Option Bytes → List (Bytes × Tree) → Bool
  | _, [] => true
  | last, (k, t) :: pairs => last.all (· < k) && t.ordered && pairsOrdered (some k) pairs

end

/-- A byte string is a value in which all keys ascend. -/
def Ordered (raw : Bytes) : Prop := ∃ t : Tree, t.Spells raw ∧ t.ordered = true

mutual

/-- Every value of the grammar is that of a tree. -/
theorem exists_tree : ∀ {raw : Bytes}, Value raw → ∃ t : Tree, t.Spells raw
  | _, .string h => ⟨.bytes _, h⟩
  | _, .integer h => ⟨.integer _, h, rfl⟩
  | _, .list h =>
      let ⟨items, hitems⟩ := exists_items h
      ⟨.list items, _, hitems, rfl⟩
  | _, .dict h =>
      let ⟨pairs, hpairs⟩ := exists_pairs h
      ⟨.dict pairs, _, hpairs, rfl⟩

theorem exists_items : ∀ {raw : Bytes}, Items raw → ∃ items, ItemsSpell items raw
  | _, .nil => ⟨[], rfl⟩
  | _, .cons hitem hrest =>
      let ⟨t, ht⟩ := exists_tree hitem
      let ⟨items, hitems⟩ := exists_items hrest
      ⟨t :: items, _, _, ht, hitems, rfl⟩

theorem exists_pairs : ∀ {raw : Bytes}, Pairs raw → ∃ pairs, PairsSpell pairs raw
  | _, .nil => ⟨[], rfl⟩
  | _, .cons hkey hvalue hrest =>
      let ⟨t, ht⟩ := exists_tree hvalue
      let ⟨pairs, hpairs⟩ := exists_pairs hrest
      ⟨(_, t) :: pairs, _, _, _, hkey, ht, hpairs, rfl⟩

end

/-- Inside the object, whose tree is known, with what is behind it and the levels there. -/
def Tree.OpenedAt (d : Decoder) (rest : Bytes) (stack : List State) : Tree → Object → Prop
  | .bytes s, .bytes s' => s' = s ∧ d.unread = rest ∧ d.state = stack
  | .integer n, .integer n' => n' = n ∧ d.unread = rest ∧ d.state = stack
  | .list items, .list _ => ∃ body, ItemsSpell items body ∧
      d.unread = body ++ ascii 'e' :: rest ∧ d.state = .seq :: stack
  | .dict pairs, .dict _ => ∃ body, PairsSpell pairs body ∧
      d.unread = body ++ ascii 'e' :: rest ∧ d.state = .mapKey none :: stack
  | _, _ => False

/-! ## More bytes, and a check -/

/-- The decoder on a longer input, that checks the order of the keys. -/
def Decoder.extend (d : Decoder) (r : Bytes) : Decoder :=
  { d with source := d.source ++ r, mustOrder := true }

@[simp] theorem Decoder.state_extend (d : Decoder) (r : Bytes) : (d.extend r).state = d.state := rfl

@[simp] theorem Decoder.offset_extend (d : Decoder) (r : Bytes) :
    (d.extend r).offset = d.offset := rfl

theorem Decoder.unread_extend {d : Decoder} {raw rest : Bytes} (h : d.unread = raw ++ rest)
    (hne : raw ≠ []) (r : Bytes) : (d.extend r).unread = raw ++ (rest ++ r) := by
  have hle := le_of_unread h hne
  show (d.source ++ r).drop d.offset = _
  rw [List.drop_append_of_le_length (by omega), ← List.append_assoc, ← h]
  rfl

/-- The key is behind the last one. -/
def inOrder : List State → Token → Bool
  | .mapKey (some old) :: _, .string label => old < label
  | _, _ => true

/-- What the structure checker makes of a token it accepts without the order. -/
theorem observeToken_true {maxDepth : ℕ} {mustOrder : Bool} {stack state : List State}
    {tok : Token} (h : observeToken maxDepth mustOrder stack tok = .ok state) :
    observeToken maxDepth true stack tok =
      if inOrder stack tok then .ok state else .error .unsortedKeys := by
  match stack, tok with
  | [], tok => cases tok <;> exact h
  | .seq :: _, tok => cases tok <;> exact h
  | .mapValue _ :: _, .list => exact h
  | .mapValue _ :: _, .dict => exact h
  | .mapValue _ :: _, .string _ => exact h
  | .mapValue _ :: _, .num _ => exact h
  | .mapKey none :: _, .string _ => exact h
  | .mapKey none :: _, .finish => exact h
  | .mapKey (some _) :: _, .finish => exact h
  | .mapKey (some old) :: stack, .string label =>
      have hstate : state = .mapValue label :: stack := by
        simp only [observeToken] at h
        split at h
        · cases h
        · exact (Except.ok.inj h).symm
      subst hstate
      simp only [observeToken, inOrder, decide_eq_true_eq, true_and]
      split <;> simp_all

section Reading

variable {d d₁ : Decoder} {raw rest : Bytes}

/-- The token whose bytes are next, read by both decoders. -/
theorem Decoder.nextToken_extend {tok : Token} {x : Option Token} (hspell : tok.Spells raw)
    (hd : d.unread = raw ++ rest) (h : d.nextToken = .ok (x, d₁)) (r : Bytes) :
    x = some tok ∧ observeToken d.maxDepth d.mustOrder d.state tok = .ok d₁.state ∧
      d₁.unread = rest ∧
      (d.extend r).nextToken =
        if inOrder d.state tok then .ok (some tok, d₁.extend r) else .error .unsortedKeys := by
  rw [nextToken_of_spells hspell hd] at h
  obtain ⟨state, hstate, he⟩ := Checked.map_eq_ok.mp h
  obtain ⟨rfl, rfl⟩ := Prod.mk.inj he
  refine ⟨rfl, hstate, unread_advance hd state, ?_⟩
  rw [nextToken_of_spells hspell (unread_extend hd hspell.ne_nil r)]
  show (observeToken d.maxDepth true d.state tok).map _ = _
  rw [observeToken_true hstate]
  split <;> rfl

/-- The object whose first bytes are next, read by both decoders. -/
theorem Decoder.nextObject_extend (tok : Token) {x : Option Object} (hspell : tok.Spells raw)
    (hd : d.unread = raw ++ rest) (h : d.nextObject = .ok (x, d₁)) (r : Bytes) :
    x = tokenObject d₁.offset (some tok) ∧
      observeToken d.maxDepth d.mustOrder d.state tok = .ok d₁.state ∧ d₁.unread = rest ∧
      (d.extend r).nextObject = if inOrder d.state tok then .ok (x, d₁.extend r)
        else .error (.ofStructure .unsortedKeys) := by
  obtain ⟨tok', htok, rfl⟩ := nextObject_eq_ok h
  obtain ⟨rfl, hstate, hunread, hextend⟩ := nextToken_extend hspell hd htok r
  refine ⟨rfl, hstate, hunread, ?_⟩
  rw [nextObject_eq, hextend]
  cases inOrder d.state tok <;> rfl

/-- Where no key is due, nothing is out of order. -/
theorem inOrder_of_not_keyDue {stack : List State} (h : ¬ KeyDue stack) (tok : Token) :
    inOrder stack tok = true := by
  unfold inOrder
  split
  · exact absurd ⟨_, _, rfl⟩ h
  · rfl

/-- **A value** is opened by both decoders. -/
theorem Decoder.value_extend {t : Tree} {x : Option Object} (ht : t.Spells raw)
    (hd : d.unread = raw ++ rest) (hdue : ¬ KeyDue d.state) (h : d.nextObject = .ok (x, d₁))
    (r : Bytes) :
    ∃ o, x = some o ∧ t.OpenedAt d₁ rest (afterValue d.state) o ∧
      (d.extend r).nextObject = .ok (some o, d₁.extend r) := by
  have hvalue := inOrder_of_not_keyDue hdue
  match t, ht with
  | .bytes s, ht =>
      obtain ⟨rfl, hstate, hunread, hextend⟩ := nextObject_extend (.string s) ht hd h r
      rw [hvalue, if_pos rfl] at hextend
      refine ⟨.bytes s, rfl, ⟨rfl, hunread, ?_⟩, hextend⟩
      rcases observeToken_eq_ok hstate with ⟨-, hafter⟩ | ⟨last, rest, hkey, -⟩
      · exact hafter
      · exact absurd ⟨last, rest, hkey⟩ hdue
  | .integer n, ht =>
      obtain ⟨rfl, hstate, hunread, hextend⟩ := nextObject_extend (.num n) ht hd h r
      rw [hvalue, if_pos rfl] at hextend
      exact ⟨.integer n, rfl, ⟨rfl, hunread, observeToken_eq_ok hstate⟩, hextend⟩
  | .list items, ⟨body, hbody, hraw⟩ =>
      have hsplit : d.unread = [ascii 'l'] ++ (body ++ ascii 'e' :: rest) := by simp [hd, hraw]
      obtain ⟨rfl, hstate, hunread, hextend⟩ := nextObject_extend .list rfl hsplit h r
      rw [hvalue, if_pos rfl] at hextend
      exact ⟨_, rfl, ⟨body, hbody, hunread, observeToken_eq_ok hstate⟩, hextend⟩
  | .dict pairs, ⟨body, hbody, hraw⟩ =>
      have hsplit : d.unread = [ascii 'd'] ++ (body ++ ascii 'e' :: rest) := by simp [hd, hraw]
      obtain ⟨rfl, hstate, hunread, hextend⟩ := nextObject_extend .dict rfl hsplit h r
      rw [hvalue, if_pos rfl] at hextend
      exact ⟨_, rfl, ⟨body, hbody, hunread, observeToken_eq_ok hstate⟩, hextend⟩

/-- The end of a list or a dictionary. -/
theorem Decoder.end_extend {x : Option Object} {level : State} {stack : List State}
    (hd : d.unread = ascii 'e' :: rest) (hstate : d.state = level :: stack)
    (h : d.nextObject = .ok (x, d₁)) (r : Bytes) :
    x = none ∧ d₁.unread = rest ∧ d₁.state = stack ∧
      (d.extend r).nextObject = .ok (none, d₁.extend r) := by
  have hsplit : d.unread = [ascii 'e'] ++ rest := hd
  obtain ⟨rfl, hobserve, hunread, hextend⟩ :=
    nextObject_extend .finish rfl hsplit h r
  obtain ⟨level', hlevel, -⟩ := observeToken_eq_ok hobserve
  have hfinish : inOrder d.state .finish = true := by
    unfold inOrder
    split
    · next htok => cases htok
    · rfl
  rw [hfinish, if_pos rfl] at hextend
  exact ⟨rfl, hunread, (List.cons.inj (hlevel.symm.trans hstate)).2, hextend⟩

theorem Decoder.nextObject_of_nextPair {x : Option (Bytes × Object)}
    (h : d.nextPair = .ok (x, d₁)) : ∃ y d₂, d.nextObject = .ok (y, d₂) := by
  match hobj : d.nextObject with
  | .ok (y, d₂) => exact ⟨y, d₂, rfl⟩
  | .error e =>
      rw [nextPair_of_error hobj] at h
      nomatch h

/-- The end of a dictionary, where an entry is asked for. -/
theorem Decoder.pair_end_extend {x : Option (Bytes × Object)} {level : State}
    {stack : List State} (hd : d.unread = ascii 'e' :: rest) (hstate : d.state = level :: stack)
    (h : d.nextPair = .ok (x, d₁)) (r : Bytes) :
    x = none ∧ d₁.unread = rest ∧ d₁.state = stack ∧
      (d.extend r).nextPair = .ok (none, d₁.extend r) := by
  obtain ⟨y, d₂, hobj⟩ := nextObject_of_nextPair h
  obtain ⟨rfl, hend, hclosed, hextend⟩ := end_extend hd hstate hobj r
  rw [nextPair_of_none hobj] at h
  obtain ⟨rfl, rfl⟩ := Prod.mk.inj (Except.ok.inj h)
  exact ⟨rfl, hend, hclosed, nextPair_of_none hextend⟩

/-- **An entry of a dictionary**, read by both decoders. -/
theorem Decoder.pair_extend {k key value : Bytes} {t : Tree} {x : Option (Bytes × Object)}
    {last : Option Bytes} {stack : List State} (hkey : Text k key) (ht : t.Spells value)
    (hd : d.unread = key ++ (value ++ rest)) (hstate : d.state = .mapKey last :: stack)
    (h : d.nextPair = .ok (x, d₁)) (r : Bytes) :
    ∃ o, x = some (k, o) ∧ t.OpenedAt d₁ rest (.mapKey (some k) :: stack) o ∧
      (d.extend r).nextPair = if last.all (· < k) then .ok (x, d₁.extend r)
        else .error (.ofStructure .unsortedKeys) := by
  obtain ⟨y, d₀, hobj⟩ := nextObject_of_nextPair h
  obtain ⟨rfl, hobserve, hunread, hextend⟩ :=
    nextObject_extend (.string k) hkey hd hobj r
  -- the key is due, and its value is due behind it
  obtain ⟨horder, hafter⟩ : inOrder d.state (.string k) = last.all (· < k) ∧
      d₀.state = .mapValue k :: stack := by
    rw [hstate]
    rcases observeToken_eq_ok hobserve with ⟨hnot, -⟩ | ⟨last', rest', hlast, hafter⟩
    · exact absurd ⟨last, stack, hstate⟩ hnot
    · obtain ⟨-, rfl⟩ := List.cons.inj (hstate.symm.trans hlast)
      cases last <;> exact ⟨rfl, hafter⟩
  have hdue : ¬ KeyDue d₀.state := hafter ▸ not_keyDue_mapValue k stack
  rw [nextPair_of_key hobj] at h
  split at h
  · cases h
  · next o d₂ hobj₂ =>
      obtain ⟨rfl, rfl⟩ := Prod.mk.inj (Except.ok.inj h)
      obtain ⟨o', ho, hopened, hvalue⟩ := value_extend ht hunread hdue hobj₂ r
      obtain rfl := Option.some.inj ho
      rw [hafter] at hopened
      refine ⟨o, rfl, hopened, ?_⟩
      rw [horder] at hextend
      cases hall : last.all (· < k) with
      | false =>
          rw [hall] at hextend
          exact nextPair_of_error hextend
      | true =>
          rw [hall] at hextend
          rw [nextPair_of_key hextend, hvalue]
          rfl
  · cases h

/-! ## Skipped values -/

mutual

/-- **What the other decoder makes of a value** that one decoder has skipped. -/
theorem Tree.OpenedAt.drop_extend : ∀ (t : Tree) {o : Object} {d d' : Decoder} {rest : Bytes}
    {stack : List State} {k : ℕ}, t.OpenedAt d rest stack o → dropObjectN k o d = .ok d' →
      ∀ r, d'.unread = rest ∧ d'.state = stack ∧
        dropObjectN k o (d.extend r) =
          if t.ordered then .ok (d'.extend r) else .error (.ofStructure .unsortedKeys)
  | .bytes s, .bytes s', d, d', rest, stack, k, ⟨_, hunread, hstate⟩, h, r => by
      have hd : d' = d := by cases k <;> exact (Except.ok.inj h).symm
      subst hd
      refine ⟨hunread, hstate, ?_⟩
      cases k <;> rfl
  | .integer n, .integer n', d, d', rest, stack, k, ⟨_, hunread, hstate⟩, h, r => by
      have hd : d' = d := by cases k <;> exact (Except.ok.inj h).symm
      subst hd
      refine ⟨hunread, hstate, ?_⟩
      cases k <;> rfl
  | .list items, .list start, d, d', rest, stack, k, ⟨body, hbody, hunread, hstate⟩, h, r => by
      exact itemsSpell_drop_extend items start hbody hunread hstate h r
  | .dict pairs, .dict start, d, d', rest, stack, k, ⟨body, hbody, hunread, hstate⟩, h, r => by
      exact pairsSpell_drop_extend pairs start hbody hunread hstate h r

theorem itemsSpell_drop_extend : ∀ (items : List Tree) (start : ℕ) {d d' : Decoder}
    {body rest : Bytes} {stack : List State} {k : ℕ}, ItemsSpell items body →
      d.unread = body ++ ascii 'e' :: rest → d.state = .seq :: stack →
      dropObjectN k (.list start) d = .ok d' →
      ∀ r, d'.unread = rest ∧ d'.state = stack ∧
        dropObjectN k (.list start) (d.extend r) =
          if itemsOrdered items then .ok (d'.extend r) else .error (.ofStructure .unsortedKeys)
  | _, _, _, _, _, _, _, 0, _, _, _, h, _ => by cases h
  | [], start, d, d', body, rest, stack, k + 1, hbody, hunread, hstate, h, r => by
      obtain rfl : body = [] := hbody
      obtain ⟨x, d₁, hobj, hx⟩ := dropObjectN_list_eq_ok h
      obtain ⟨rfl, hend, hclosed, hextend⟩ := Decoder.end_extend hunread hstate hobj r
      obtain rfl := hx
      rw [dropObjectN, hextend]
      exact ⟨hend, hclosed, rfl⟩
  | t :: items, start, d, d', body, rest, stack, k + 1, hbody, hunread, hstate, h, r => by
      obtain ⟨item, others, ht, hitems, rfl⟩ := hbody
      have hdue : ¬ KeyDue d.state := hstate ▸ not_keyDue_seq stack
      rw [List.append_assoc] at hunread
      obtain ⟨x, d₁, hobj, hx⟩ := dropObjectN_list_eq_ok h
      obtain ⟨o, rfl, hopened, hextend⟩ := Decoder.value_extend ht hunread hdue hobj r
      rw [hstate] at hopened
      -- the item, and the rest of the list
      obtain ⟨d₂, hitem, hlist⟩ := hx
      obtain ⟨hunread₂, hstate₂, hdrop⟩ := Tree.OpenedAt.drop_extend t hopened hitem r
      obtain ⟨hend, hclosed, hrest⟩ :=
        itemsSpell_drop_extend items start hitems hunread₂ hstate₂ hlist r
      refine ⟨hend, hclosed, ?_⟩
      rw [dropObjectN, hextend]
      show (dropObjectN k o (d₁.extend r)).bind _ = _
      rw [hdrop, itemsOrdered]
      match t.ordered with
      | false => rfl
      | true => exact hrest

theorem pairsSpell_drop_extend : ∀ (pairs : List (Bytes × Tree)) (start : ℕ) {d d' : Decoder}
    {body rest : Bytes} {last : Option Bytes} {stack : List State} {k : ℕ}, PairsSpell pairs body →
      d.unread = body ++ ascii 'e' :: rest → d.state = .mapKey last :: stack →
      dropObjectN k (.dict start) d = .ok d' →
      ∀ r, d'.unread = rest ∧ d'.state = stack ∧
        dropObjectN k (.dict start) (d.extend r) =
          if pairsOrdered last pairs then .ok (d'.extend r)
          else .error (.ofStructure .unsortedKeys)
  | _, _, _, _, _, _, _, _, 0, _, _, _, h, _ => by cases h
  | [], start, d, d', body, rest, last, stack, k + 1, hbody, hunread, hstate, h, r => by
      obtain rfl : body = [] := hbody
      obtain ⟨x, d₁, hpair, hx⟩ := dropObjectN_dict_eq_ok h
      obtain ⟨rfl, hend, hclosed, hextend⟩ := Decoder.pair_end_extend hunread hstate hpair r
      obtain rfl := hx
      rw [dropObjectN, hextend]
      exact ⟨hend, hclosed, rfl⟩
  | (label, t) :: pairs, start, d, d', body, rest, last, stack, k + 1, hbody, hunread, hstate, h,
      r => by
      obtain ⟨key, value, others, hkey, ht, hpairs, rfl⟩ := hbody
      rw [List.append_assoc, List.append_assoc] at hunread
      obtain ⟨x, d₁, hpair, hx⟩ := dropObjectN_dict_eq_ok h
      obtain ⟨o, rfl, hopened, hextend⟩ := Decoder.pair_extend hkey ht hunread hstate hpair r
      -- the value, and the rest of the dictionary
      obtain ⟨d₂, hvalue, hdict⟩ := hx
      obtain ⟨hunread₂, hstate₂, hdrop⟩ := Tree.OpenedAt.drop_extend t hopened hvalue r
      obtain ⟨hend, hclosed, hrest⟩ :=
        pairsSpell_drop_extend pairs start hpairs hunread₂ hstate₂ hdict r
      refine ⟨hend, hclosed, ?_⟩
      rw [dropObjectN, hextend, pairsOrdered]
      match last.all (· < label) with
      | false => rfl
      | true =>
          show (dropObjectN k o (d₁.extend r)).bind _ = _
          rw [hdrop]
          match t.ordered with
          | false => rfl
          | true => exact hrest

end

/-- The bound is large enough for the longer input. -/
theorem dropObject_extend {t : Tree} {o : Object} {d d' : Decoder} {rest : Bytes}
    {stack : List State} (ht : t.OpenedAt d rest stack o) (hd : d.offset ≤ d.source.length)
    (h : dropObject o d = .ok d') (r : Bytes) :
    d'.unread = rest ∧ d'.state = stack ∧
      dropObject o (d.extend r) =
        if t.ordered then .ok (d'.extend r) else .error (.ofStructure .unsortedKeys) := by
  have hmore : d.remaining < (d.extend r).remaining + 1 := by
    show d.source.length - d.offset < (d.source ++ r).length - d.offset + 1
    rw [List.length_append]
    omega
  rw [dropObject, (dropObjectN_reads o d (Nat.lt_succ_self _) hd).1 _ hmore] at h
  exact Tree.OpenedAt.drop_extend t ht h r

end Reading

/-! ## Decoded values -/

variable {σ T : Type}

/-- A decoder that accepts a value whose keys ascend accepts the same with the check, and with more
bytes behind the value. -/
def Decode.Stable (decode : Decode T) : Prop :=
  ∀ ⦃t : Tree⦄ ⦃o d rest stack a d'⦄, t.OpenedAt d rest stack o → t.ordered = true →
    d.offset ≤ d.source.length → decode o d = .ok (a, d') →
    ∀ r, decode o (d.extend r) = .ok (a, d'.extend r)

theorem decodeUnsigned_stable (bits : ℕ) : (decodeUnsigned bits).Stable := by
  intro t o d rest stack a d' _ _ _ h r
  match o with
  | .integer s =>
      simp only [decodeUnsigned] at h ⊢
      split at h
      · obtain ⟨rfl, rfl⟩ := Prod.mk.inj (Except.ok.inj h)
        rfl
      · cases h

theorem unknownField_stable (s : σ) : (unknownField s).Stable := by
  intro t o d rest stack a d' ht hordered hd h r
  obtain ⟨d₁, hdrop, he⟩ := Checked.map_eq_ok.mp h
  obtain ⟨rfl, rfl⟩ := Prod.mk.inj he
  obtain ⟨-, -, hextend⟩ := dropObject_extend ht hd hdrop r
  rw [unknownField, hextend, if_pos hordered]
  rfl

theorem field_stable {name : String} {decode : Decode T} {set : T → σ} (h : decode.Stable) :
    (field name decode set).Stable := by
  intro t o d rest stack a d' ht hordered hd hdec r
  obtain ⟨⟨b, d₁⟩, hctx, he⟩ := Checked.map_eq_ok.mp hdec
  obtain ⟨rfl, rfl⟩ := Prod.mk.inj he
  rw [field, h ht hordered hd (context_eq_ok hctx) r]
  rfl

theorem Decode.Stable.ite {p : Prop} [Decidable p] {decode decode' : Decode T}
    (h : decode.Stable) (h' : decode'.Stable) :
    Decode.Stable (if p then decode else decode') := by
  split
  · exact h
  · exact h'

section Dictionaries

variable {body : σ → Bytes → Decode σ}

/-- A dictionary loop where all keys ascend. -/
theorem dictLoopN_stable (hwhole : ∀ s key, (body s key).Whole)
    (hstable : ∀ s key, (body s key).Stable) {pairs : List (Bytes × Tree)} :
    ∀ {k : ℕ} {s s' : σ} {d d' : Decoder} {raw rest : Bytes} {last : Option Bytes}
      {stack : List State}, PairsSpell pairs raw → d.unread = raw ++ ascii 'e' :: rest →
      d.state = .mapKey last :: stack → pairsOrdered last pairs = true →
      dictLoopN body k s d = .ok (s', d') →
      ∀ r, dictLoopN body k s (d.extend r) = .ok (s', d'.extend r) := by
  induction pairs with
  | nil =>
      intro k s s' d d' raw rest last stack hpairs hunread hstate _ h r
      obtain rfl : raw = [] := hpairs
      match k with
      | 0 => cases h
      | k + 1 =>
          obtain ⟨x, d₁, hpair, hx⟩ := dictLoopN_eq_ok h
          obtain ⟨rfl, -, -, hextend⟩ := Decoder.pair_end_extend hunread hstate hpair r
          obtain ⟨rfl, rfl⟩ := hx
          rw [dictLoopN, hextend]
  | cons pair pairs ih =>
      intro k s s' d d' raw rest last stack hpairs hunread hstate hordered h r
      obtain ⟨label, t⟩ := pair
      obtain ⟨key, value, others, hkey, ht, hpairs, rfl⟩ := hpairs
      rw [pairsOrdered, Bool.and_eq_true, Bool.and_eq_true] at hordered
      obtain ⟨⟨hlast, hvalue⟩, hothers⟩ := hordered
      match k with
      | 0 => cases h
      | k + 1 =>
          rw [List.append_assoc, List.append_assoc] at hunread
          obtain ⟨x, d₁, hpair, hx⟩ := dictLoopN_eq_ok h
          obtain ⟨o, rfl, hopened, hextend⟩ :=
            Decoder.pair_extend hkey ht hunread hstate hpair r
          rw [hlast, if_pos rfl] at hextend
          -- the value, and the rest of the dictionary
          obtain ⟨s₁, d₂, hbody, hrest⟩ := hx
          have hle := (Decoder.nextPair_reads hpair).offset_le
          obtain ⟨hunread₂, hstate₂, -⟩ :=
            dropObject_extend hopened hle (hwhole s label hbody hle) r
          rw [dictLoopN, hextend]
          simp only [hstable s label hopened hvalue hle hbody r]
          exact ih hpairs hunread₂ hstate₂ hothers hrest r

theorem dictLoop_stable (hwhole : ∀ s key, (body s key).Whole)
    (hstable : ∀ s key, (body s key).Stable) (s : σ) : (dictLoop body s).Stable := by
  intro t o d rest stack a d' ht hordered hd h r
  match t, o, ht with
  | .dict pairs, .dict start, ⟨raw, hpairs, hunread, hstate⟩ =>
      have hmore : d.remaining < (d.extend r).remaining + 1 := by
        show d.source.length - d.offset < (d.source ++ r).length - d.offset + 1
        rw [List.length_append]
        omega
      have hforward : ∀ s key, (body s key).Forward := fun s key => (hwhole s key).forward
      rw [dictLoop, dictLoopN_fuel hforward s d (Nat.lt_succ_self _) hmore] at h
      exact dictLoopN_stable hwhole hstable hpairs hunread hstate hordered h r

end Dictionaries

/-! ## The entry points -/

/-- The object that the decoder of a whole input reads, and the decoder of a longer one. -/
theorem opened_of_fromBencode {decode : Decode T} (hwhole : decode.Whole) {mustOrder : Bool}
    {maxDepth : ℕ} {data : Bytes} {a : T} {t : Tree} (ht : t.Spells data)
    (h : fromBencode decode mustOrder maxDepth data = .ok a) (r : Bytes) :
    ∃ o d d', t.OpenedAt d [] [] o ∧ d.offset ≤ d.source.length ∧ decode o d = .ok (a, d') ∧
      d'.offset = data.length ∧
      (Decoder.new (data ++ r) true maxDepth).nextObject = .ok (some o, d.extend r) := by
  have hunread : (Decoder.new data mustOrder maxDepth).unread = data ++ [] :=
    (List.append_nil data).symm
  unfold fromBencode at h
  split at h
  · cases h
  · cases h
  · next o d hobj =>
      obtain ⟨⟨a', d'⟩, hdec, rfl⟩ := Checked.map_eq_ok.mp h
      have hreads := Decoder.nextObject_reads hobj
      have hle := hreads.offset_le
      have hdrop := hwhole hdec hle
      obtain ⟨o', ho, hopened, hobj'⟩ := Decoder.value_extend ht hunread not_keyDue_nil hobj r
      obtain rfl := Option.some.inj ho
      refine ⟨o, d, d', hopened, hle, hdec, ?_, hobj'⟩
      -- nothing is left to read
      have hrest := congrArg List.length (dropObject_extend hopened hle hdrop r).1
      rw [← Decoder.remaining_eq, List.length_nil] at hrest
      have hread' := hreads.trans (dropObject_reads hdrop hle)
      have hsource : d'.source.length = data.length := congrArg List.length hread'.source
      have hbound := hread'.offset_le
      unfold Decoder.remaining at hrest
      omega

/-- **The first value of an input** that begins with a dictionary which the decoder accepts: with
the check it is accepted, and ends where the dictionary does, if and only if all keys ascend. -/
theorem fromBencodeFirst_append_iff {decode : Decode T} (hwhole : decode.Whole)
    (hstable : decode.Stable) {mustOrder : Bool} {maxDepth : ℕ} {data : Bytes} {a : T}
    (hdata : Dictionary data) (h : fromBencode decode mustOrder maxDepth data = .ok a) (r : Bytes) :
    fromBencodeFirst decode maxDepth (data ++ r) = .ok (a, data.length) ↔ Ordered data := by
  have hvalue : Value data := by
    obtain ⟨pairs, hpairs, rfl⟩ := hdata
    exact .dict hpairs
  constructor
  · intro hfirst
    obtain ⟨t, ht⟩ := exists_tree hvalue
    obtain ⟨o, d, d', hopened, hle, hdec, -, hobj⟩ := opened_of_fromBencode hwhole ht h r
    refine ⟨t, ht, ?_⟩
    rw [fromBencodeFirst, hobj] at hfirst
    obtain ⟨⟨a', d''⟩, hdec', -⟩ := Checked.map_eq_ok.mp hfirst
    -- a decoder that succeeds has skipped the dictionary
    have hle' : (d.extend r).offset ≤ (d.extend r).source.length := by
      show d.offset ≤ (d.source ++ r).length
      rw [List.length_append]
      omega
    have hdrop' := hwhole hdec' hle'
    rw [(dropObject_extend hopened hle (hwhole hdec hle) r).2.2] at hdrop'
    by_contra hnot
    rw [if_neg hnot] at hdrop'
    cases hdrop'
  · rintro ⟨t, ht, hordered⟩
    obtain ⟨o, d, d', hopened, hle, hdec, hend, hobj⟩ := opened_of_fromBencode hwhole ht h r
    rw [fromBencodeFirst, hobj]
    dsimp only
    rw [hstable hopened hordered hle hdec r, ← hend]
    rfl

end Bendy
