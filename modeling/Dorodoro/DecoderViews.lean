/-
# What decoders make of trees (`lib/bendy`)

The decoders of values are loops over tokens.  Whatever they do on the way, they are functions of
the tree that the bytes spell.

* `Decode.Makes` and `Decode.Views`: what a decoder makes of the bytes of a tree, from the base
  types up to lists, dictionaries and skipped values;
* `fromBencode_iff`: an input is accepted if and only if it begins with the bytes of a tree of which
  the decoder makes a value;
* `LastOf` and `Sets`: the fields of a dictionary, when the last entry of a key counts.
-/
import Dorodoro.BencodeTrees

namespace Bendy

/-! ## Views -/

section Views

variable {σ T : Type} {decode decode' : Decode T} {t : Tree}

/-- What a decoder makes of the bytes of a tree, wherever they stand. -/
def Decode.Makes (decode : Decode T) (t : Tree) (result : Except Error T) : Prop :=
  ∀ raw, t.Spells raw → decode.Reads t.depth raw result

/-- The decoder is a function of the tree. -/
def Decode.Views (decode : Decode T) (view : Tree → Except Error T) : Prop :=
  ∀ t, decode.Makes t (view t)

/-- A tree that is read within a depth is read within a larger one. -/
theorem Decode.Reads.mono {m n : ℕ} {raw : Bytes} {result : Except Error T}
    (h : decode.Reads m raw result) (hle : m ≤ n) : decode.Reads n raw result := by
  intro d rest hd
  have hdepth := hd.depth
  exact h d rest ⟨hd.unread, hd.due, by omega, hd.mustOrder⟩

/-- A decoder that goes on with what another one has made. -/
theorem Decode.Makes.andThen {decode : Decode σ} {result : Except Error σ}
    (h : decode.Makes t result) (finish : σ → Except Error T)
    (hfinish : ∀ o d, decode' o d =
      (decode o d).bind fun p => (finish p.1).map fun a => (a, p.2)) :
    decode'.Makes t (result.bind finish) :=
  fun raw hraw => (h raw hraw).andThen finish hfinish

/-- A decision that the tree does not depend on. -/
theorem Decode.Makes.ite {p : Prop} [Decidable p] {result result' : Except Error T}
    (h : p → decode.Makes t result) (h' : ¬ p → decode'.Makes t result') :
    (if p then decode else decode').Makes t (if p then result else result') := by
  split_ifs with hp
  · exact h hp
  · exact h' hp

/-- A value that is changed afterwards. -/
theorem Decode.Makes.map {decode : Decode σ} {result : Except Error σ}
    (h : decode.Makes t result) (f : σ → T) :
    Decode.Makes (fun o d => (decode o d).map fun (a, d') => (f a, d')) t (result.map f) := by
  intro raw hraw d rest hd
  obtain ⟨o, d₁, hobj, hdec⟩ := h raw hraw d rest hd
  refine ⟨o, d₁, hobj, ?_⟩
  dsimp only
  rw [hdec]
  cases result <;> rfl

/-- A field makes of its value what the decoder of the value does. -/
theorem field_makes {name : String} {set : T → σ} {result : Except Error T}
    (h : decode.Makes t result) :
    (field name decode set).Makes t ((context name result).map set) :=
  fun raw hraw => field_reads (h raw hraw)

/-! ### Base types -/

theorem makes_bytes {s : Bytes} {result : Except Error T}
    (h : ∀ d, decode (.bytes s) d = result.map fun a => (a, d)) :
    decode.Makes (.bytes s) result := by
  intro raw hraw
  obtain ⟨hs, rfl⟩ := Text.eq_emitBytes hraw
  exact reads_bytes hs h 0

theorem makes_integer {n : Bytes} {result : Except Error T}
    (h : ∀ d, decode (.integer n) d = result.map fun a => (a, d)) :
    decode.Makes (.integer n) result := by
  intro raw hraw d rest hd
  exact ⟨.integer n, _, Decoder.nextObject_of_spells (.num n) hraw hd.unread
    (observeToken_value (Or.inr ⟨n, rfl⟩) d.maxDepth d.mustOrder hd.due), h _⟩

/-- An object of another kind. -/
theorem makes_error {e : Error} (h : ∀ o d, o.name = t.name → decode o d = .error e) :
    decode.Makes t (.error e) := by
  rcases t with s | n | items | pairs
  · exact makes_bytes fun d => h _ d rfl
  · exact makes_integer fun d => h _ d rfl
  · rintro raw ⟨body, -, rfl⟩
    exact reads_list_error (fun start d => h _ d rfl) _ _
  · rintro raw ⟨body, -, rfl⟩ d rest hd
    have hdepth := hd.depth
    rw [Tree.depth] at hdepth
    have hopen := (observeToken_open d.mustOrder hd.due (by omega : d.state.length < d.maxDepth)).2
    have hunread : d.unread = [ascii 'd'] ++ (body ++ [ascii 'e'] ++ rest) := hd.unread
    exact ⟨_, _, Decoder.nextObject_of_spells .dict rfl hunread hopen, h _ _ rfl⟩

/-- The object of a tree is of the kind of the tree: a decoder that reports the kind of its object
reports this one. -/
theorem Tree.Spells.name_eq {raw rest : Bytes} (ht : t.Spells raw) {d d₁ : Decoder} {o : Object}
    (hd : d.Before t.depth raw rest) (hobj : d.nextObject = .ok (some o, d₁)) :
    o.name = t.name := by
  have hreport : @Decode.Makes Unit (fun o _ => .error (.missingField o.name)) t
      (.error (.missingField t.name)) := makes_error fun o _ ho => by rw [ho]
  obtain ⟨o', d₂, hobj', hname⟩ := hreport raw ht d rest hd
  rw [hobj] at hobj'
  obtain ⟨ho, -⟩ := Prod.mk.inj (Except.ok.inj hobj')
  obtain rfl := Option.some.inj ho
  change Except.error (Error.missingField o.name) =
    Except.error (Error.missingField t.name) at hname
  simpa [Error.missingField, Error.ofKind] using hname

/-- A decoder that does the same with objects of this kind. -/
theorem Decode.Makes.congr {result : Except Error T} (h : decode.Makes t result)
    (hsame : ∀ o d, o.name = t.name → decode' o d = decode o d) : decode'.Makes t result := by
  intro raw ht d rest hd
  obtain ⟨o, d₁, hobj, hdec⟩ := h raw ht d rest hd
  exact ⟨o, d₁, hobj, (hsame o d₁ (ht.name_eq hd hobj)).trans hdec⟩

/-- The error of the `try_into_` functions. -/
def Tree.unexpected (expected : String) (t : Tree) : Error :=
  .ofKind (.unexpectedToken expected t.name)

/-- A value of another type is refused with its name. -/
theorem makes_unexpected {expected : String} (ht : t.name ≠ expected)
    (h : ∀ o d, o.name ≠ expected →
      decode o d = .error (.ofKind (.unexpectedToken expected o.name))) :
    decode.Makes t (.error (t.unexpected expected)) := by
  refine makes_error fun o d ho => ?_
  rw [h o d (ho ▸ ht), ho]
  rfl

/-- The view of `AsString`. -/
def Tree.asBytes : Tree → Except Error Bytes
  | .bytes s => .ok s
  | t => .error (t.unexpected "String")

/-- The view of `String`. -/
def Tree.asString : Tree → Except Error String
  | .bytes s =>
      match stringFromUtf8 s with
      | some str => .ok str
      | none => .error (.ofKind (.malformedContent .fromUtf8))
  | t => .error (t.unexpected "String")

/-- The view of an unsigned integer. -/
def Tree.asUnsigned (bits : ℕ) : Tree → Except Error ℕ
  | .integer n =>
      match parseUnsigned bits n with
      | some i => .ok i
      | none => .error (.ofKind (.malformedContent .parseInt))
  | t => .error (t.unexpected "Num")

theorem decodeBytes_views : decodeBytes.Views Tree.asBytes := by
  have hother : ∀ o d, o.name ≠ "String" →
      decodeBytes o d = .error (.ofKind (.unexpectedToken "String" o.name)) := by
    intro o d ho
    cases o with
    | bytes s => exact absurd rfl ho
    | _ => rfl
  intro t
  rcases t with s | n | items | pairs
  · exact makes_bytes fun d => rfl
  · exact makes_unexpected (by simp [Tree.name]) hother
  · exact makes_unexpected (by simp [Tree.name]) hother
  · exact makes_unexpected (by simp [Tree.name]) hother

theorem decodeString_views : decodeString.Views Tree.asString := by
  have hother : ∀ o d, o.name ≠ "String" →
      decodeString o d = .error (.ofKind (.unexpectedToken "String" o.name)) := by
    intro o d ho
    cases o with
    | bytes s => exact absurd rfl ho
    | _ => rfl
  intro t
  rcases t with s | n | items | pairs
  · refine makes_bytes fun d => ?_
    rw [decodeString, Tree.asString]
    cases stringFromUtf8 s <;> rfl
  · exact makes_unexpected (by simp [Tree.name]) hother
  · exact makes_unexpected (by simp [Tree.name]) hother
  · exact makes_unexpected (by simp [Tree.name]) hother

theorem decodeUnsigned_views (bits : ℕ) :
    (decodeUnsigned bits).Views (Tree.asUnsigned bits) := by
  have hother : ∀ o d, o.name ≠ "Num" →
      decodeUnsigned bits o d = .error (.ofKind (.unexpectedToken "Num" o.name)) := by
    intro o d ho
    cases o with
    | integer n => exact absurd rfl ho
    | _ => rfl
  intro t
  rcases t with s | n | items | pairs
  · exact makes_unexpected (by simp [Tree.name]) hother
  · refine makes_integer fun d => ?_
    rw [decodeUnsigned, Tree.asUnsigned]
    cases parseUnsigned bits n <;> rfl
  · exact makes_unexpected (by simp [Tree.name]) hother
  · exact makes_unexpected (by simp [Tree.name]) hother

/-! ### Lists -/

section Lists

variable {item : Decode T} {view : Tree → Except Error T}

/-- The view of a `Vec`. -/
def Tree.asVec (view : Tree → Except Error T) : Tree → Except Error (List T)
  | .list items => items.mapM view
  | t => .error (t.unexpected "List")

/-- **The loop** over a list makes of every item what the decoder of the items does. -/
theorem listLoopN_makes {items : List Tree} (h : ∀ t ∈ items, item.Makes t (view t)) :
    ∀ (results : List T) {body rest : Bytes} {k : ℕ} {d : Decoder} {stack : List State},
      ItemsSpell items body → d.unread = body ++ ascii 'e' :: rest → d.state = .seq :: stack →
      d.state.length + Tree.itemsDepth items ≤ d.maxDepth → d.mustOrder = false →
      d.remaining < k → listLoopN item k results d = (items.mapM view).map fun as =>
        (results ++ as, d.advance (body ++ [ascii 'e']) stack) := by
  induction items with
  | nil =>
      intro results body rest k d stack hbody hd hstate _ _ hk
      obtain rfl : body = [] := hbody
      obtain ⟨k, rfl⟩ : ∃ k', k = k' + 1 := ⟨k - 1, by omega⟩
      have hend : observeToken d.maxDepth d.mustOrder d.state .finish = .ok stack := by
        rw [hstate]
        rfl
      have hobj := Decoder.nextObject_of_spells .finish rfl (by exact hd) hend
      rw [listLoopN, hobj]
      show Except.ok (results, _) = Except.ok (results ++ [], _)
      rw [List.append_nil]
      rfl
  | cons t items ih =>
      intro results body rest k d stack hbody hd hstate hdepth horder hk
      obtain ⟨ht, hitems⟩ := List.forall_mem_cons.mp h
      obtain ⟨raw, others, hraw, hothers, rfl⟩ := hbody
      obtain ⟨k, rfl⟩ : ∃ k', k = k' + 1 := ⟨k - 1, by omega⟩
      rw [Tree.itemsDepth] at hdepth
      rw [List.append_assoc] at hd
      have hdue : ¬ KeyDue d.state := hstate ▸ not_keyDue_seq stack
      obtain ⟨o, d₁, hobj, hdec⟩ := ht raw hraw d _ ⟨hd, hdue, by omega, horder⟩
      have hafter : afterValue d.state = d.state := by rw [hstate]; rfl
      rw [listLoopN, hobj, List.mapM_cons]
      simp only [hdec]
      rcases view t with e | a
      · rfl
      · -- the rest of the list
        have hunread := Decoder.unread_advance hd d.state
        have hfewer : (d.advance raw d.state).remaining < k := by
          have hpos := List.length_pos_iff.mpr hraw.ne_nil
          rw [Decoder.remaining_eq, hd, List.length_append] at hk
          rw [Decoder.remaining_eq, hunread]
          omega
        have hrest := ih hitems (results ++ [a]) hothers hunread hstate
          (show d.state.length + _ ≤ d.maxDepth by omega) horder hfewer
        show listLoopN item k (results ++ [a]) (d.advance raw (afterValue d.state)) = _
        rw [hafter, hrest]
        rcases items.mapM view with e | as
        · rfl
        · rw [Decoder.advance_advance]
          show Except.ok (results ++ [a] ++ as, _) = Except.ok (results ++ a :: as, _)
          rw [List.append_assoc results, List.append_assoc raw]
          rfl

/-- A list makes a list of what its elements make. -/
theorem decodeVec_makes {items : List Tree} (h : ∀ t ∈ items, item.Makes t (view t)) :
    (decodeVec item).Makes (.list items) (items.mapM view) := by
  rintro raw ⟨body, hbody, rfl⟩ d rest hd
  have hdepth := hd.depth
  rw [Tree.depth] at hdepth
  have hopen := (observeToken_open d.mustOrder hd.due (by omega : d.state.length < d.maxDepth)).1
  have hunread : d.unread = [ascii 'l'] ++ (body ++ ascii 'e' :: rest) := by
    rw [hd.unread]
    simp
  refine ⟨_, _, Decoder.nextObject_of_spells .list rfl hunread hopen, ?_⟩
  have hinner : (afterValue d.state).length + 1 + Tree.itemsDepth items ≤ d.maxDepth := by
    rw [length_afterValue]
    omega
  show listLoopN item _ [] _ = _
  rw [listLoopN_makes h [] hbody (Decoder.unread_advance hunread _) rfl hinner hd.mustOrder
    (Nat.lt_succ_self _), Decoder.advance_advance]
  rfl

theorem decodeVec_views (h : item.Views view) : (decodeVec item).Views (Tree.asVec view) := by
  have hother : ∀ o d, o.name ≠ "List" →
      decodeVec item o d = .error (.ofKind (.unexpectedToken "List" o.name)) := by
    intro o d ho
    cases o with
    | list start => exact absurd rfl ho
    | _ => rfl
  intro t
  rcases t with s | n | items | pairs
  · exact makes_unexpected (by simp [Tree.name]) hother
  · exact makes_unexpected (by simp [Tree.name]) hother
  · exact decodeVec_makes fun t _ => h t
  · exact makes_unexpected (by simp [Tree.name]) hother

end Lists

/-! ### Dictionaries -/

section Dictionaries

variable {body : σ → Bytes → Decode σ} {view : σ → Bytes → Tree → Except Error σ}

/-- The view of the loop over a dictionary. -/
def Tree.asDict (view : σ → Bytes → Tree → Except Error σ) (s : σ) : Tree → Except Error σ
  | .dict pairs => pairs.foldlM (fun s p => view s p.1 p.2) s
  | t => .error (t.unexpected "Dict")

/-- Only a dictionary is viewed as one. -/
theorem Tree.asDict_eq_ok {s s' : σ}
    (h : t.asDict view s = .ok s') :
    ∃ pairs, t = .dict pairs ∧ pairs.foldlM (fun s p => view s p.1 p.2) s = .ok s' := by
  rcases t with b | n | items | pairs
  · cases h
  · cases h
  · cases h
  · exact ⟨pairs, rfl, h⟩

/-- The entries that the loop reads, one after the other. -/
theorem readsPairs_of_spells {n : ℕ} {pairs : List (Bytes × Tree)}
    (h : ∀ p ∈ pairs, ∀ s, (body s p.1).Makes p.2 (view s p.1 p.2))
    (hdepth : ∀ p ∈ pairs, p.2.depth ≤ n) : ∀ {raw : Bytes}, PairsSpell pairs raw → ∀ s : σ,
      ∃ raws, raw = raws.flatMap pairBytes ∧
        ReadsPairs body n s raws (pairs.foldlM (fun s p => view s p.1 p.2) s) := by
  induction pairs with
  | nil =>
      intro raw hraw s
      obtain rfl : raw = [] := hraw
      exact ⟨[], rfl, .nil s⟩
  | cons p pairs ih =>
      intro raw hraw s
      obtain ⟨hp, hpairs⟩ := List.forall_mem_cons.mp h
      obtain ⟨hle, hrest⟩ := List.forall_mem_cons.mp hdepth
      obtain ⟨key, value, others, hkey, hvalue, hothers, rfl⟩ := hraw
      obtain ⟨hlen, rfl⟩ := Text.eq_emitBytes hkey
      have hread := (hp s value hvalue).mono hle
      rw [List.foldlM_cons]
      rcases hview : view s p.1 p.2 with e | u
      · -- the entries behind an error are not read
        obtain ⟨raws, rfl, -⟩ := ih hpairs hrest hothers s
        rw [hview] at hread
        exact ⟨(p.1, value) :: raws, rfl, .fail hlen hread⟩
      · obtain ⟨raws, rfl, hreads⟩ := ih hpairs hrest hothers u
        rw [hview] at hread
        exact ⟨(p.1, value) :: raws, rfl, .cons hlen hread hreads⟩

/-- A dictionary makes what its entries make, one after the other. -/
theorem dictLoop_makes {pairs : List (Bytes × Tree)}
    (h : ∀ p ∈ pairs, ∀ s, (body s p.1).Makes p.2 (view s p.1 p.2)) (s : σ) :
    (dictLoop body s).Makes (.dict pairs) (pairs.foldlM (fun s p => view s p.1 p.2) s) := by
  rintro raw ⟨entries, hentries, rfl⟩
  obtain ⟨raws, rfl, hreads⟩ :=
    readsPairs_of_spells h (fun p hp => Tree.depth_le_pairsDepth hp) hentries s
  exact dictLoop_reads hreads

theorem dictLoop_views (h : ∀ s k, (body s k).Views (view s k)) (s : σ) :
    (dictLoop body s).Views (Tree.asDict view s) := by
  have hother : ∀ o d, o.name ≠ "Dict" →
      dictLoop body s o d = .error (.ofKind (.unexpectedToken "Dict" o.name)) := by
    intro o d ho
    cases o with
    | dict start => exact absurd rfl ho
    | _ => rfl
  intro t
  rcases t with b | n | items | pairs
  · exact makes_unexpected (by simp [Tree.name]) hother
  · exact makes_unexpected (by simp [Tree.name]) hother
  · exact makes_unexpected (by simp [Tree.name]) hother
  · exact dictLoop_makes (fun p _ s => h s p.1 p.2) s

end Dictionaries

/-! ### Skipped values -/

/-- An object that some decoder reads to its end can be dropped. -/
theorem Decode.Makes.dropped {a : T} (h : decode.Makes t (.ok a)) (hwhole : decode.Whole) (s : σ) :
    (unknownField s).Makes t (.ok s) := by
  intro raw hraw d rest hd
  obtain ⟨o, d₁, hobj, hdec⟩ := h raw hraw d rest hd
  have hdrop := hwhole hdec (Decoder.nextObject_reads hobj).offset_le
  refine ⟨o, d₁, hobj, ?_⟩
  rw [unknownField, hdrop]
  rfl

/-- **Every value can be skipped.** -/
theorem unknownField_makes (t : Tree) : ∀ s : σ, (unknownField s).Makes t (.ok s) := by
  have hskip : (unknownField ()).Makes t (.ok ()) := by
    induction t using Tree.induct with
    | bytes s => exact makes_bytes fun _ => rfl
    | integer n => exact makes_integer fun _ => rfl
    | list items ih =>
        have hlist : (decodeVec (unknownField ())).Makes (.list items)
          (items.mapM fun _ => .ok ()) := decodeVec_makes ih
        have hall : items.mapM (fun _ => (.ok () : Except Error Unit)) =
          .ok (items.map fun _ => ()) := List.mapM_pure
        rw [hall] at hlist
        exact hlist.dropped (decodeVec_whole (unknownField_whole ())) ()
    | dict pairs ih =>
        have hdict := @dictLoop_makes Unit (fun s _ => unknownField s) (fun s _ _ => .ok s) pairs
          (fun p hp _ => ih p hp) ()
        have hall : pairs.foldlM (fun s _ => (.ok s : Except Error Unit)) () = .ok () :=
          List.foldlM_pure
        rw [hall] at hdict
        exact hdict.dropped (dictLoop_whole (fun s _ => unknownField_whole s) ()) ()
  exact fun s => hskip.dropped (unknownField_whole ()) s

/-! ### The entry point -/

/-- What is made of an input that begins with the bytes of a tree. -/
theorem Decode.Makes.fromBencode {result : Except Error T} (h : decode.Makes t result)
    {raw : Bytes} (ht : t.Spells raw) {maxDepth : ℕ} (hdepth : t.depth ≤ maxDepth) (rest : Bytes) :
    Bendy.fromBencode decode false maxDepth (raw ++ rest) = result := by
  have hbefore : (Decoder.new (raw ++ rest) false maxDepth).Before t.depth raw rest :=
    ⟨rfl, not_keyDue_nil, by simpa [Decoder.new] using hdepth, rfl⟩
  obtain ⟨o, d₁, hobj, hdec⟩ := h raw ht _ _ hbefore
  rw [Bendy.fromBencode, hobj]
  dsimp only
  rw [hdec]
  cases result <;> rfl

/-- **What is accepted**: an input that begins with the bytes of a tree, no deeper than allowed, of
which the decoder makes a value. -/
theorem fromBencode_iff {view : Tree → Except Error T} (hwhole : decode.Whole)
    (hviews : decode.Views view) {maxDepth : ℕ} {data : Bytes} {a : T} :
    fromBencode decode false maxDepth data = .ok a ↔
      ∃ (t : Tree) (raw rest : Bytes), t.Spells raw ∧ t.depth ≤ maxDepth ∧ data = raw ++ rest ∧
        view t = .ok a := by
  constructor
  · intro h
    have hrun := h
    unfold fromBencode at h
    split at h
    · cases h
    · cases h
    · next o d hobj =>
        obtain ⟨⟨a', d'⟩, hdec, rfl⟩ := Checked.map_eq_ok.mp h
        have hdrop := hwhole hdec (Decoder.nextObject_reads hobj).offset_le
        obtain ⟨t, raw, rest, ht, hunread, -, hle⟩ :=
          exists_tree_of_dropObject hobj hdrop not_keyDue_nil (Nat.zero_le maxDepth)
        have hdata : data = raw ++ rest := hunread
        have hdepth : t.depth ≤ maxDepth := by
          change 0 + _ ≤ maxDepth at hle
          omega
        refine ⟨t, raw, rest, ht, hdepth, hdata, ?_⟩
        rw [hdata, (hviews t).fromBencode ht hdepth rest] at hrun
        exact hrun
  · rintro ⟨t, raw, rest, ht, hdepth, rfl, hview⟩
    rw [(hviews t).fromBencode ht hdepth rest, hview]

end Views

/-! ## Fields -/

section Fields

variable {σ α : Type} {step : σ → Bytes → Tree → Except Error σ} {sel : Bytes → Tree → Bool}
  {view : Tree → Except Error α} {get : σ → Option α} {pairs : List (Bytes × Tree)}
  {ts : List Tree} {o : Option α}

/-- The values of some of the entries. -/
def Tree.select (sel : Bytes → Tree → Bool) (pairs : List (Bytes × Tree)) : List Tree :=
  (pairs.filter fun p => sel p.1 p.2).map Prod.snd

/-- The values of a key. -/
def Tree.valuesOf (k : Bytes) : List (Bytes × Tree) → List Tree :=
  Tree.select fun k' _ => decide (k' = k)

/-- A field is set when its value can be read. -/
theorem exists_map_context {name : String} {x : Except Error α} {set : α → σ} :
    (∃ s, (context name x).map set = .ok s) ↔ ∃ a, x = .ok a := by
  constructor
  · rintro ⟨s, h⟩
    obtain ⟨a, ha, -⟩ := Checked.map_eq_ok.mp h
    exact ⟨a, context_eq_ok ha⟩
  · rintro ⟨a, rfl⟩
    exact ⟨set a, rfl⟩

theorem Tree.select_cons (p : Bytes × Tree) : Tree.select sel (p :: pairs) =
    if sel p.1 p.2 then p.2 :: Tree.select sel pairs else Tree.select sel pairs := by
  rw [Tree.select, List.filter_cons]
  split_ifs
  · rfl
  · rfl

theorem Tree.select_and (k : Bytes) (f : Tree → Bool) :
    Tree.select (fun k' t => decide (k' = k) && f t) pairs = (Tree.valuesOf k pairs).filter f := by
  rw [Tree.valuesOf, Tree.select, Tree.select, List.filter_map, List.filter_filter]
  congr 1
  exact List.filter_congr fun p _ => Bool.and_comm _ _

/-- All the values can be viewed, and the last one counts. -/
def LastOf (view : Tree → Except Error α) (ts : List Tree) (o : Option α) : Prop :=
  ∃ as, ts.mapM view = .ok as ∧ o = as.getLast?

/-- A step sets a field from the selected entries, and leaves it as it is at all the others. -/
def Sets (step : σ → Bytes → Tree → Except Error σ) (sel : Bytes → Tree → Bool)
    (view : Tree → Except Error α) (get : σ → Option α) : Prop :=
  ∀ ⦃s k t s'⦄, step s k t = .ok s' →
    if sel k t then ∃ a, view t = .ok a ∧ get s' = some a else get s' = get s

/-- A list of views begins with the view of its first tree. -/
theorem mapM_cons_eq_ok {t : Tree} {as : List α} (h : (t :: ts).mapM view = .ok as) :
    ∃ a as', view t = .ok a ∧ ts.mapM view = .ok as' ∧ as = a :: as' := by
  rw [List.mapM_cons] at h
  obtain ⟨a, ha, h⟩ := Checked.bind_eq_ok.mp h
  obtain ⟨as', has, h⟩ := Checked.bind_eq_ok.mp h
  exact ⟨a, as', ha, has, (Except.ok.inj h).symm⟩

/-- Every tree of the list has a view, not only the last one. -/
theorem LastOf.exists_of_mem (h : LastOf view ts o) {t : Tree} (ht : t ∈ ts) :
    ∃ a, view t = .ok a := by
  obtain ⟨as, has, -⟩ := h
  induction ts generalizing as with
  | nil => cases ht
  | cons u ts ih =>
      obtain ⟨a, as', ha, has', -⟩ := mapM_cons_eq_ok has
      rcases List.mem_cons.mp ht with rfl | hmem
      · exact ⟨a, ha⟩
      · exact ih hmem as' has'

/-- The last view is unique. -/
theorem LastOf.unique {o' : Option α} (h : LastOf view ts o) (h' : LastOf view ts o') : o = o' := by
  obtain ⟨as, has, rfl⟩ := h
  obtain ⟨as', has', rfl⟩ := h'
  rw [Except.ok.inj (has.symm.trans has')]

/-- There is no last view of an empty list only. -/
theorem LastOf.eq_none_iff (h : LastOf view ts o) : o = none ↔ ts = [] := by
  obtain ⟨as, has, rfl⟩ := h
  rw [List.getLast?_eq_none_iff]
  rcases ts with _ | ⟨t, ts⟩
  · obtain rfl := Except.ok.inj has
    exact iff_of_true rfl rfl
  · obtain ⟨a, as', -, -, rfl⟩ := mapM_cons_eq_ok has
    exact iff_of_false (List.cons_ne_nil _ _) (List.cons_ne_nil _ _)

/-- The value that counts. -/
theorem LastOf.exists_getLast {a : α} (h : LastOf view ts (some a)) :
    ∃ t, ts.getLast? = some t ∧ view t = .ok a := by
  obtain ⟨as, has, hlast⟩ := h
  induction ts generalizing as with
  | nil =>
      obtain rfl := Except.ok.inj has
      cases hlast
  | cons t ts ih =>
      obtain ⟨b, bs, hb, hbs, rfl⟩ := mapM_cons_eq_ok has
      rw [List.getLast?_cons] at hlast
      rw [List.getLast?_cons]
      rcases hlast' : bs.getLast? with _ | c
      · rw [hlast'] at hlast
        obtain rfl := Option.some.inj hlast
        have hnone : ts.getLast? = none :=
          List.getLast?_eq_none_iff.mpr ((LastOf.eq_none_iff ⟨bs, hbs, hlast'.symm⟩).mp rfl)
        exact ⟨t, by rw [hnone]; rfl, hb⟩
      · rw [hlast'] at hlast
        obtain rfl := Option.some.inj hlast
        obtain ⟨u, hu, hview⟩ := ih bs hbs hlast'.symm
        exact ⟨u, by rw [hu]; rfl, hview⟩

/-- A list of trees with views has a last view. -/
theorem exists_lastOf (h : ∀ t ∈ ts, ∃ a, view t = .ok a) : ∃ o, LastOf view ts o := by
  induction ts with
  | nil => exact ⟨none, [], rfl, rfl⟩
  | cons t ts ih =>
      obtain ⟨ht, hts⟩ := List.forall_mem_cons.mp h
      obtain ⟨a, ha⟩ := ht
      obtain ⟨-, as, has, -⟩ := ih hts
      refine ⟨_, a :: as, ?_, rfl⟩
      rw [List.mapM_cons, ha, has]
      rfl

theorem lastOf_nil : LastOf view [] none := ⟨[], rfl, rfl⟩

theorem lastOf_singleton {t : Tree} {a : α} (h : view t = .ok a) : LastOf view [t] (some a) := by
  refine ⟨[a], ?_, rfl⟩
  rw [List.mapM_cons, h]
  rfl

/-- What a loop leaves in a field. -/
theorem Sets.getLast (h : Sets step sel view get) {s s' : σ}
    (hfold : pairs.foldlM (fun s p => step s p.1 p.2) s = .ok s') :
    ∃ as, (Tree.select sel pairs).mapM view = .ok as ∧ get s' = as.getLast?.or (get s) := by
  induction pairs generalizing s with
  | nil =>
      obtain rfl := Except.ok.inj hfold
      exact ⟨[], rfl, rfl⟩
  | cons p pairs ih =>
      rw [List.foldlM_cons] at hfold
      obtain ⟨s₁, hstep, hfold⟩ := Checked.bind_eq_ok.mp hfold
      obtain ⟨as, has, hlast⟩ := ih hfold
      have hset := h hstep
      by_cases hsel : sel p.1 p.2 = true
      · rw [if_pos hsel] at hset
        obtain ⟨a, ha, hget⟩ := hset
        refine ⟨a :: as, ?_, ?_⟩
        · rw [Tree.select_cons, if_pos hsel, List.mapM_cons, ha, has]
          rfl
        · rw [hlast, hget, List.getLast?_cons]
          cases as.getLast? <;> rfl
      · rw [if_neg hsel] at hset
        rw [Tree.select_cons, if_neg hsel]
        exact ⟨as, has, hset ▸ hlast⟩

/-- **A field that was empty** holds the last of the values that are selected for it. -/
theorem Sets.lastOf (h : Sets step sel view get) {s s' : σ}
    (hfold : pairs.foldlM (fun s p => step s p.1 p.2) s = .ok s') (hs : get s = none) :
    LastOf view (Tree.select sel pairs) (get s') := by
  obtain ⟨as, has, hlast⟩ := h.getLast hfold
  refine ⟨as, has, ?_⟩
  rw [hlast, hs, Option.or_none]

/-- **A loop ends well** if every entry is acceptable, when that does not depend on the others. -/
theorem exists_foldlM_iff {P : Bytes → Tree → Prop}
    (h : ∀ s k t, (∃ s', step s k t = .ok s') ↔ P k t) (s : σ) :
    (∃ s', pairs.foldlM (fun s p => step s p.1 p.2) s = .ok s') ↔ ∀ p ∈ pairs, P p.1 p.2 := by
  induction pairs generalizing s with
  | nil => exact iff_of_true ⟨s, rfl⟩ fun p hp => absurd hp List.not_mem_nil
  | cons p pairs ih =>
      rw [List.forall_mem_cons, List.foldlM_cons]
      constructor
      · rintro ⟨s', hfold⟩
        obtain ⟨s₁, hstep, hfold⟩ := Checked.bind_eq_ok.mp hfold
        exact ⟨(h s p.1 p.2).mp ⟨s₁, hstep⟩, (ih s₁).mp ⟨s', hfold⟩⟩
      · rintro ⟨hp, hpairs⟩
        obtain ⟨s₁, hstep⟩ := (h s p.1 p.2).mpr hp
        obtain ⟨s', hfold⟩ := (ih s₁).mpr hpairs
        refine ⟨s', ?_⟩
        rw [hstep]
        exact hfold

theorem Tree.mem_select {p : Bytes × Tree} (hp : p ∈ pairs) (hsel : sel p.1 p.2 = true) :
    p.2 ∈ Tree.select sel pairs :=
  List.mem_map_of_mem (List.mem_filter.mpr ⟨hp, hsel⟩)

theorem Tree.mem_valuesOf {k : Bytes} {p : Bytes × Tree} (hp : p ∈ pairs) (hk : p.1 = k) :
    p.2 ∈ Tree.valuesOf k pairs := Tree.mem_select hp (decide_eq_true hk)

theorem Tree.exists_of_mem_valuesOf {k : Bytes} {t : Tree} (h : t ∈ Tree.valuesOf k pairs) :
    ∃ p ∈ pairs, p.1 = k ∧ p.2 = t := by
  obtain ⟨p, hp, rfl⟩ := List.mem_map.mp h
  obtain ⟨hmem, hk⟩ := List.mem_filter.mp hp
  exact ⟨p, hmem, of_decide_eq_true hk, rfl⟩

end Fields

end Bendy
