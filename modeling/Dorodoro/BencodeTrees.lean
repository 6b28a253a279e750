/-
# The trees behind the objects (`lib/bendy`)

An object that is read to its end spells a tree, and the tree is no deeper than the decoder allows.

* `Tree.depth`, and `Tree.induct` for an induction on a tree;
* `DropsTrees`: what is left of an open list or dictionary spells items or entries;
* `exists_tree_of_dropObject`: the tree of an object that is dropped.
-/
import Dorodoro.BencodeOrder
import Dorodoro.BencodeTokens

namespace Bendy

/-! ## Trees -/

mutual

/-- How many lists and dictionaries stand around the innermost value. -/
def Tree.depth : Tree → ℕ
  | .bytes _ => 0
  | .integer _ => 0
  | .list items => Tree.itemsDepth items + 1
  | .dict pairs => Tree.pairsDepth pairs + 1

@[inherit_doc Tree.depth]
def Tree.itemsDepth : List Tree → ℕ
  | [] => 0
  | t :: items => max t.depth (Tree.itemsDepth items)

@[inherit_doc Tree.depth]
def Tree.pairsDepth : List (Bytes × Tree) → ℕ
  | [] => 0
  | (_, t) :: pairs => max t.depth (Tree.pairsDepth pairs)

end

theorem Tree.depth_le_pairsDepth {p : Bytes × Tree} {pairs : List (Bytes × Tree)}
    (h : p ∈ pairs) : p.2.depth ≤ Tree.pairsDepth pairs := by
  induction pairs with
  | nil => cases h
  | cons q pairs ih =>
      rcases List.mem_cons.mp h with rfl | hmem
      · exact Nat.le_max_left _ _
      · exact (ih hmem).trans (Nat.le_max_right _ _)

/-- **Induction on a tree**, with one hypothesis for all items or entries. -/
@[elab_as_elim]
theorem Tree.induct {motive : Tree → Prop} (bytes : ∀ s, motive (.bytes s))
    (integer : ∀ n, motive (.integer n))
    (list : ∀ items, (∀ t ∈ items, motive t) → motive (.list items))
    (dict : ∀ pairs, (∀ p ∈ pairs, motive p.2) → motive (.dict pairs)) (t : Tree) : motive t := by
  refine @Tree.rec motive (fun items => ∀ t ∈ items, motive t)
    (fun pairs => ∀ p ∈ pairs, motive p.2) (fun p => motive p.2) bytes integer list dict ?_ ?_ ?_ ?_
    ?_ t
  · exact fun t ht => absurd ht List.not_mem_nil
  · exact fun t items ht hitems => List.forall_mem_cons.mpr ⟨ht, hitems⟩
  · exact fun p hp => absurd hp List.not_mem_nil
  · exact fun p pairs hp hpairs => List.forall_mem_cons.mpr ⟨hp, hpairs⟩
  · exact fun _ t ht => ht

/-- `Object::into_token` followed by `Token::name`, for the object of a tree. -/
def Tree.name : Tree → String
  | .list _ => "List"
  | .dict _ => "Dict"
  | .integer _ => "Num"
  | .bytes _ => "String"

theorem Tree.Spells.ne_nil {t : Tree} {raw : Bytes} (h : t.Spells raw) : raw ≠ [] := by
  rintro rfl
  rcases t with s | n | items | pairs
  · have hspell : (Token.string s).Spells [] := h
    exact hspell.ne_nil rfl
  · have hspell : (Token.num n).Spells [] := h
    exact hspell.ne_nil rfl
  · obtain ⟨body, -, hraw⟩ := h
    cases hraw
  · obtain ⟨body, -, hraw⟩ := h
    cases hraw

/-! ## Dropped objects are trees -/

/-- The rest of an open list, or of an open dictionary, spells items or entries. -/
structure DropsTrees (k : ℕ) : Prop where
  list : ∀ {d d' : Decoder} {start : ℕ} {stack : List State},
    dropObjectN k (.list start) d = .ok d' → d.state = .seq :: stack →
    d.state.length ≤ d.maxDepth →
    ∃ (items : List Tree) (body rest : Bytes), ItemsSpell items body ∧
      d.unread = body ++ ascii 'e' :: rest ∧ d' = d.advance (body ++ [ascii 'e']) stack ∧
      d.state.length + Tree.itemsDepth items ≤ d.maxDepth
  dict : ∀ {d d' : Decoder} {start : ℕ} {last : Option Bytes} {stack : List State},
    dropObjectN k (.dict start) d = .ok d' → d.state = .mapKey last :: stack →
    d.state.length ≤ d.maxDepth →
    ∃ (pairs : List (Bytes × Tree)) (body rest : Bytes), PairsSpell pairs body ∧
      d.unread = body ++ ascii 'e' :: rest ∧ d' = d.advance (body ++ [ascii 'e']) stack ∧
      d.state.length + Tree.pairsDepth pairs ≤ d.maxDepth

/-- The next object, where a value may stand, begins a tree. -/
theorem DropsTrees.value {k : ℕ} (h : DropsTrees k) {d d₁ d' : Decoder} {o : Object}
    (hdue : ¬ KeyDue d.state) (hdepth : d.state.length ≤ d.maxDepth)
    (hobj : d.nextObject = .ok (some o, d₁)) (hdrop : dropObjectN k o d₁ = .ok d') :
    ∃ (t : Tree) (raw rest : Bytes), t.Spells raw ∧ d.unread = raw ++ rest ∧
      d' = d.advance raw (afterValue d.state) ∧ d.state.length + t.depth ≤ d.maxDepth := by
  obtain ⟨tok, htok, ho⟩ := nextToken_of_nextObject hobj
  obtain ⟨hlegal, ⟨rest, hunread⟩, state, hstate, rfl⟩ := Decoder.nextToken_iff.mp htok
  have hspell := Token.spells_iff.mpr ⟨hlegal, rfl⟩
  obtain ⟨hlist, hdict⟩ :=
    @observeToken_open_eq d.mustOrder d.maxDepth d.state hdue
  have hlevels := length_afterValue d.state
  cases tok with
  | finish => cases ho
  | string s =>
      rw [observeToken_value (Or.inl ⟨s, rfl⟩) d.maxDepth d.mustOrder hdue] at hstate
      obtain rfl := Except.ok.inj hstate
      obtain rfl := Option.some.inj ho
      refine ⟨.bytes s, _, rest, hspell, hunread, ?_, hdepth⟩
      cases k <;> exact (Except.ok.inj hdrop).symm
  | num n =>
      rw [observeToken_value (Or.inr ⟨n, rfl⟩) d.maxDepth d.mustOrder hdue] at hstate
      obtain rfl := Except.ok.inj hstate
      obtain rfl := Option.some.inj ho
      refine ⟨.integer n, _, rest, hspell, hunread, ?_, hdepth⟩
      cases k <;> exact (Except.ok.inj hdrop).symm
  | list =>
      rw [hlist] at hstate
      split_ifs at hstate with hlt
      obtain rfl := Except.ok.inj hstate
      obtain rfl := Option.some.inj ho
      obtain ⟨items, body, rest', hitems, hbody, rfl, hle⟩ := h.list hdrop rfl
        (show (afterValue d.state).length + 1 ≤ d.maxDepth by omega)
      rw [Decoder.unread_advance hunread] at hbody
      refine ⟨.list items, _, rest', ⟨body, hitems, rfl⟩, ?_, ?_, ?_⟩
      · rw [hunread, hbody]
        simp [Token.bytes]
      · rw [Decoder.advance_advance]
        rfl
      · change (afterValue d.state).length + 1 + _ ≤ d.maxDepth at hle
        rw [Tree.depth]
        omega
  | dict =>
      rw [hdict] at hstate
      split_ifs at hstate with hlt
      obtain rfl := Except.ok.inj hstate
      obtain rfl := Option.some.inj ho
      obtain ⟨pairs, body, rest', hpairs, hbody, rfl, hle⟩ := h.dict hdrop rfl
        (show (afterValue d.state).length + 1 ≤ d.maxDepth by omega)
      rw [Decoder.unread_advance hunread] at hbody
      refine ⟨.dict pairs, _, rest', ⟨body, hpairs, rfl⟩, ?_, ?_, ?_⟩
      · rw [hunread, hbody]
        simp [Token.bytes]
      · rw [Decoder.advance_advance]
        rfl
      · change (afterValue d.state).length + 1 + _ ≤ d.maxDepth at hle
        rw [Tree.depth]
        omega

/-- The end of a list or a dictionary. -/
theorem Decoder.advance_of_finish {d d' : Decoder} {level : State} {stack : List State}
    (hstate : d.state = level :: stack) (h : d.nextToken = .ok (some .finish, d')) :
    (∃ rest, d.unread = ascii 'e' :: rest) ∧ d' = d.advance [ascii 'e'] stack := by
  obtain ⟨-, ⟨rest, hunread⟩, state, hobserve, rfl⟩ := nextToken_iff.mp h
  obtain ⟨level', hlevel, -⟩ := observeToken_eq_ok hobserve
  obtain ⟨-, rfl⟩ := List.cons.inj (hstate.symm.trans hlevel)
  exact ⟨⟨rest, hunread⟩, rfl⟩

/-- A key of a dictionary. -/
theorem Decoder.advance_of_key {d d' : Decoder} {label : Bytes} {last : Option Bytes}
    {stack : List State} (hstate : d.state = .mapKey last :: stack)
    (h : d.nextToken = .ok (some (.string label), d')) :
    ∃ key rest, Text label key ∧ d.unread = key ++ rest ∧
      d' = d.advance key (.mapValue label :: stack) := by
  obtain ⟨hlegal, ⟨rest, hunread⟩, state, hobserve, rfl⟩ := nextToken_iff.mp h
  refine ⟨_, rest, text_emitBytes hlegal, hunread, ?_⟩
  rcases observeToken_eq_ok hobserve with ⟨hnot, -⟩ | ⟨last', stack', hlast, rfl⟩
  · exact absurd ⟨last, stack, hstate⟩ hnot
  · obtain ⟨-, rfl⟩ := List.cons.inj (hstate.symm.trans hlast)
    rfl

/-- **Every object that can be dropped** spells a tree. -/
theorem dropsTrees (k : ℕ) : DropsTrees k := by
  induction k with
  | zero =>
      constructor
      · intro d d' start stack h
        cases h
      · intro d d' start last stack h
        cases h
  | succ k ih =>
      constructor
      · intro d d' start stack h hstate hdepth
        obtain ⟨_ | o, d₁, hobj, hx⟩ := dropObjectN_list_eq_ok h
        · obtain rfl := hx
          have hne : d.state ≠ [] := by
            rw [hstate]
            exact List.cons_ne_nil _ _
          have htok := nextToken_of_nextObject_none hobj hne
          obtain ⟨⟨rest, hunread⟩, rfl⟩ := Decoder.advance_of_finish hstate htok
          exact ⟨[], [], rest, rfl, hunread, rfl, hdepth⟩
        · -- an item, and the rest of the list
          obtain ⟨d₂, hitem, hrest⟩ := hx
          have hdue : ¬ KeyDue d.state := hstate ▸ not_keyDue_seq stack
          obtain ⟨t, raw, rest, ht, hunread, rfl, hle⟩ := ih.value hdue hdepth hobj hitem
          have hafter : afterValue d.state = d.state := by rw [hstate]; rfl
          rw [hafter] at hrest
          obtain ⟨items, body, rest', hitems, hbody, rfl, hle'⟩ := ih.list hrest hstate hdepth
          rw [Decoder.unread_advance hunread] at hbody
          refine ⟨t :: items, raw ++ body, rest', ⟨raw, body, ht, hitems, rfl⟩, ?_, ?_, ?_⟩
          · rw [hunread, hbody, List.append_assoc]
          · rw [Decoder.advance_advance, List.append_assoc]
          · change d.state.length + _ ≤ d.maxDepth at hle'
            rw [Tree.itemsDepth]
            omega
      · intro d d' start last stack h hstate hdepth
        obtain ⟨_ | ⟨label, o⟩, d₁, hpair, hx⟩ := dropObjectN_dict_eq_ok h
        · obtain rfl := hx
          obtain ⟨⟨rest, hunread⟩, rfl⟩ :=
            Decoder.advance_of_finish hstate (nextPair_none hstate hpair)
          exact ⟨[], [], rest, rfl, hunread, rfl, hdepth⟩
        · -- an entry, and the rest of the dictionary
          obtain ⟨d₂, hvalue, hrest⟩ := hx
          obtain ⟨d₀, htok, hobj⟩ := nextPair_some hpair
          obtain ⟨key, rest₀, hkey, hunread₀, rfl⟩ := Decoder.advance_of_key hstate htok
          have hroom : (State.mapValue label :: stack).length ≤ d.maxDepth := by
            rw [hstate] at hdepth
            exact hdepth
          obtain ⟨t, raw, rest, ht, hunread, rfl, hle⟩ :=
            ih.value (not_keyDue_mapValue label stack) hroom hobj hvalue
          rw [Decoder.unread_advance hunread₀] at hunread
          rw [Decoder.advance_advance] at hrest
          obtain ⟨pairs, body, rest', hpairs, hbody, rfl, hle'⟩ := ih.dict hrest rfl hroom
          rw [hunread, ← List.append_assoc] at hunread₀
          rw [Decoder.unread_advance hunread₀] at hbody
          refine ⟨(label, t) :: pairs, key ++ raw ++ body, rest',
            ⟨key, raw, body, hkey, ht, hpairs, rfl⟩, ?_, ?_, ?_⟩
          · rw [hunread₀, hbody, List.append_assoc (key ++ raw)]
          · rw [Decoder.advance_advance, List.append_assoc (key ++ raw)]
          · change stack.length + 1 + _ ≤ d.maxDepth at hle hle'
            rw [hstate, Tree.pairsDepth, List.length_cons]
            omega

/-- **An object that is dropped** was a tree, no deeper than allowed. -/
theorem exists_tree_of_dropObject {d d₁ d' : Decoder} {o : Object}
    (hobj : d.nextObject = .ok (some o, d₁)) (hdrop : dropObject o d₁ = .ok d')
    (hdue : ¬ KeyDue d.state) (hdepth : d.state.length ≤ d.maxDepth) :
    ∃ (t : Tree) (raw rest : Bytes), t.Spells raw ∧ d.unread = raw ++ rest ∧
      d' = d.advance raw (afterValue d.state) ∧ d.state.length + t.depth ≤ d.maxDepth :=
  (dropsTrees _).value hdue hdepth hobj hdrop

end Bendy
