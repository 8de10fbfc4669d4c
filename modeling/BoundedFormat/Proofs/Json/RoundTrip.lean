import BoundedFormat.Json.Reader
import BoundedFormat.Proofs.Json.Token

/-!
# Printed JSON is read back

`ReadsBack` says of a value that the reader, wherever a value is due, takes its text and nothing
else, and is then behind the value. Scalars have this property, and containers have it if what they
hold has it one level deeper. An object is read with its members in the order of their keys, so it
is read back as it was only if it held them so; `Plain` asks for that at every level. A look-up
tells no difference as long as no key is there twice.
-/

namespace BoundedFormat.Json

open ReadState

/-! ## Members in order -/

/-- Members in the order in which an object with them is read. -/
def arranged (members : List (String × Json)) : List (String × Json) :=
  members.foldl (fun done m => insertMember m.1 m.2 done) []

theorem insertMember_of_last {key : String} (value : Json) {members : List (String × Json)}
    (h : ∀ m ∈ members, m.1 < key) :
    insertMember key value members = members ++ [(key, value)] := by
  induction members with
  | nil => rfl
  | cons m members ih =>
      obtain ⟨hm, hmore⟩ := List.forall_mem_cons.mp h
      have hne : key ≠ m.1 := by
        rintro rfl
        exact String.lt_irrefl _ hm
      rw [insertMember, if_neg (String.lt_asymm hm), if_neg hne, ih hmore, List.cons_append]

/-- Members that are in order stay as they are. -/
theorem arranged_of_pairwise {members : List (String × Json)}
    (h : members.Pairwise fun a b => a.1 < b.1) : arranged members = members := by
  have hfold : ∀ done : List (String × Json), (done ++ members).Pairwise (fun a b => a.1 < b.1) →
      members.foldl (fun done m => insertMember m.1 m.2 done) done = done ++ members := by
    clear h
    induction members with
    | nil => exact fun done _ => (List.append_nil done).symm
    | cons m members ih =>
        intro done hdone
        have hlast : ∀ d ∈ done, d.1 < m.1 := fun d hd =>
          (List.pairwise_append.mp hdone).2.2 d hd m List.mem_cons_self
        rw [List.append_cons] at hdone
        rw [List.foldl_cons, insertMember_of_last m.2 hlast, ih _ hdone, ← List.append_cons]
  exact hfold [] h

theorem lookup_cons_eq (key other : String) (value : Json) (members : List (String × Json)) :
    ((key, value) :: members).lookup other =
      if other = key then some value else members.lookup other := by
  by_cases h : other = key
  · rw [List.lookup_cons, beq_iff_eq.mpr h, if_pos h]
  · rw [List.lookup_cons, beq_eq_false_iff_ne.mpr h, if_neg h]

theorem lookup_insertMember (key other : String) (value : Json) (members : List (String × Json)) :
    (insertMember key value members).lookup other =
      if other = key then some value else members.lookup other := by
  induction members with
  | nil => exact lookup_cons_eq key other value []
  | cons m members ih =>
      obtain ⟨k, v⟩ := m
      rw [insertMember]
      split
      · exact lookup_cons_eq key other value _
      · split
        · next hkey =>
            subst hkey
            simp only [lookup_cons_eq]
            split <;> rfl
        · next hkey =>
            -- An older member stays in front, and is found before the new one is.
            simp only [lookup_cons_eq, ih]
            by_cases hk : other = k
            · rw [if_pos hk, if_pos hk, if_neg (fun h => hkey (h.symm.trans hk))]
            · rw [if_neg hk, if_neg hk]

/-- A look-up in an arranged object finds what it finds in the members as they were. -/
theorem lookup_arranged {members : List (String × Json)} (h : (members.map Prod.fst).Nodup)
    (key : String) : (arranged members).lookup key = members.lookup key := by
  have hfold : ∀ done : List (String × Json),
      (members.foldl (fun done m => insertMember m.1 m.2 done) done).lookup key =
        (members.lookup key).or (done.lookup key) := by
    induction members with
    | nil => exact fun done => rfl
    | cons m members ih =>
        intro done
        obtain ⟨k, v⟩ := m
        obtain ⟨hk, hmore⟩ := List.nodup_cons.mp h
        rw [List.foldl_cons, ih hmore, lookup_insertMember, lookup_cons_eq]
        by_cases hkey : key = k
        · have hnone : members.lookup key = none := by
            rw [List.lookup_eq_none_iff]
            intro m hm
            rw [bne_iff_ne]
            intro heq
            have hfound : m.1 ∈ members.map Prod.fst := List.mem_map_of_mem hm
            exact hk ((hkey.symm.trans heq) ▸ hfound)
          rw [hnone, if_pos hkey, if_pos hkey]
          rfl
        · rw [if_neg hkey, if_neg hkey]
  rw [arranged, hfold [], List.lookup_nil, Option.or_none]

/-! ## One token -/

section Token

variable {state state' : ReadState} {c : Char} {s rest : List Char}

theorem run_token {token : Token} (hblank : isBlank c = false)
    (hread : Token.read? (c :: s) = some (token, rest)) (hstep : state.step token = some state') :
    state.run (c :: s) = state'.run rest := by
  rw [run, hblank, if_neg Bool.false_ne_true]
  split
  · next h => cases hread.symm.trans h
  · next h =>
      cases hread.symm.trans h
      rw [hstep]

theorem run_stringChars {text : String} (hstep : state.step (.string text) = some state') :
    state.run (stringChars text ++ rest) = state'.run rest :=
  run_token rfl (read?_stringChars text rest) hstep

theorem run_integerChars {i : Int} (hrange : InRange i) (hrest : EndsNumber rest)
    (hstep : state.step (.number (.integer i)) = some state') :
    state.run (integerChars i ++ rest) = state'.run rest := by
  have hread := read?_integerChars hrange hrest
  obtain ⟨c, s, hchars, hhead⟩ := integerChars_cons i
  have hblank : isBlank c = false := by
    rcases hhead with rfl | hdigit
    · rfl
    · exact isBlank_of_isDigit hdigit
  rw [hchars, List.cons_append] at hread ⊢
  exact run_token hblank hread hstep

end Token

/-! ## Values -/

/-- A value is due: anywhere, or as the first item of an array. -/
def Phase.AwaitsValue (phase : Phase) : Prop := phase = .value ∨ phase = .item

theorem step_beginValue {phase : Phase} (hphase : phase.AwaitsValue) (stack : List Frame)
    {token : Token} (htoken : token ≠ .closeArray) :
    step { stack, phase } token = beginValue stack token := by
  rcases hphase with rfl | rfl
  · rfl
  · cases token with
    | closeArray => exact absurd rfl htoken
    | _ => rfl

/-- The text of a value, nested at most so deep, is read back, whatever is open around it. -/
def ReadsBack (depth : ℕ) (text : List Char) (value : Json) : Prop :=
  ∀ (stack : List Frame) (phase : Phase) (rest : List Char), phase.AwaitsValue →
    stack.length + depth ≤ maxDepth → EndsNumber rest →
    run { stack, phase } (text ++ rest) = run { stack, phase := .after value } rest

theorem endsNumber_cons {c : Char} (h : c.isDigit = false ∧ c ≠ '.' ∧ c ≠ 'e' ∧ c ≠ 'E')
    (rest : List Char) : EndsNumber (c :: rest) := by
  intro b hb
  cases hb
  exact h

theorem endsNumber_itemChars (items : List Json) (rest : List Char) :
    EndsNumber (itemChars items ++ ']' :: rest) := by
  cases items with
  | nil => exact endsNumber_cons (by decide) rest
  | cons item items => exact endsNumber_cons (by decide) _

theorem endsNumber_memberChars (members : List (String × Json)) (rest : List Char) :
    EndsNumber (memberChars members ++ '\x7d' :: rest) := by
  cases members with
  | nil => exact endsNumber_cons (by decide) rest
  | cons m members => exact endsNumber_cons (by decide) _

section Containers

variable {depth : ℕ} {stack : List Frame} {rest : List Char}

/-- Behind the first item of an array the others are read, and the end. -/
theorem run_itemChars {items : List Json} (hitems : ∀ item ∈ items, ReadsBack depth item.chars item)
    (hroom : stack.length + 1 + depth ≤ maxDepth) (done : List Json) (value : Json) :
    run { stack := .array done :: stack, phase := .after value } (itemChars items ++ ']' :: rest) =
      run { stack, phase := .after (.array (done.reverse ++ value :: items)) } rest := by
  induction items generalizing done value with
  | nil =>
      have hend : step { stack := .array done :: stack, phase := .after value } .closeArray =
          some { stack, phase := .after (.array (value :: done).reverse) } := rfl
      rw [List.reverse_cons] at hend
      exact run_token rfl rfl hend
  | cons item items ih =>
      obtain ⟨hitem, hmore⟩ := List.forall_mem_cons.mp hitems
      have hcomma : step { stack := .array done :: stack, phase := .after value } .comma =
          some { stack := .array (value :: done) :: stack, phase := .value } := rfl
      rw [itemChars, List.append_assoc, List.cons_append]
      calc _ = run { stack := .array (value :: done) :: stack, phase := .value }
                (item.chars ++ (itemChars items ++ ']' :: rest)) := run_token rfl rfl hcomma
        _ = run { stack := .array (value :: done) :: stack, phase := .after item }
                (itemChars items ++ ']' :: rest) :=
              hitem _ _ _ (.inl rfl) hroom (endsNumber_itemChars items rest)
        _ = _ := by rw [ih hmore, List.reverse_cons, List.append_assoc, List.singleton_append]

/-- A key and its colon lead to the value of the member. -/
theorem run_key {state : ReadState} {done : List (String × Json)} {key : String}
    (hstep : state.step (.string key) = some { stack, phase := .colon done key }) :
    state.run (stringChars key ++ ':' :: rest) =
      run { stack := .object done key :: stack, phase := .value } rest := by
  rw [run_stringChars hstep]
  exact run_token rfl rfl rfl

/-- Behind the first member of an object the others are read, and the end. -/
theorem run_memberChars {members : List (String × Json)}
    (hmembers : ∀ m ∈ members, ReadsBack depth m.2.chars m.2)
    (hroom : stack.length + 1 + depth ≤ maxDepth) (done : List (String × Json)) (key : String)
    (value : Json) :
    run { stack := .object done key :: stack, phase := .after value }
        (memberChars members ++ '\x7d' :: rest) =
      run
        { stack
          phase := .after (.object
            (((key, value) :: members).foldl (fun done m => insertMember m.1 m.2 done) done)) }
        rest := by
  induction members generalizing done key value with
  | nil => exact run_token rfl rfl rfl
  | cons m members ih =>
      obtain ⟨hm, hmore⟩ := List.forall_mem_cons.mp hmembers
      obtain ⟨nextKey, nextValue⟩ := m
      let done' := insertMember key value done
      have hcomma : step { stack := .object done key :: stack, phase := .after value } .comma =
          some { stack, phase := .key done' } := rfl
      simp only [memberChars, List.cons_append, List.append_assoc]
      calc _ = run { stack, phase := .key done' } (stringChars nextKey ++
                ':' :: (nextValue.chars ++ (memberChars members ++ '\x7d' :: rest))) :=
              run_token rfl rfl hcomma
        _ = run { stack := .object done' nextKey :: stack, phase := .value }
                (nextValue.chars ++ (memberChars members ++ '\x7d' :: rest)) := run_key rfl
        _ = run { stack := .object done' nextKey :: stack, phase := .after nextValue }
                (memberChars members ++ '\x7d' :: rest) :=
              hm _ _ _ (.inl rfl) hroom (endsNumber_memberChars members rest)
        _ = _ := ih hmore done' nextKey nextValue

theorem readsBack_array {items : List Json}
    (hitems : ∀ item ∈ items, ReadsBack depth item.chars item) :
    ReadsBack (depth + 1) (Json.array items).chars (.array items) := by
  intro stack phase rest hphase hroom _
  have hopen : step { stack, phase } .openArray =
      some { stack := .array [] :: stack, phase := .item } := by
    rw [step_beginValue hphase stack (by decide)]
    exact if_pos (by omega)
  cases items with
  | nil =>
      exact (run_token rfl rfl hopen).trans (run_token rfl rfl rfl)
  | cons item items =>
      obtain ⟨hitem, hmore⟩ := List.forall_mem_cons.mp hitems
      have hinner : (Frame.array [] :: stack).length + depth ≤ maxDepth := by
        rw [List.length_cons]
        omega
      simp only [chars, List.cons_append, List.append_assoc, List.nil_append]
      calc _ = run { stack := .array [] :: stack, phase := .item }
                (item.chars ++ (itemChars items ++ ']' :: rest)) := run_token rfl rfl hopen
        _ = run { stack := .array [] :: stack, phase := .after item }
                (itemChars items ++ ']' :: rest) :=
              hitem _ _ _ (.inr rfl) hinner (endsNumber_itemChars items rest)
        _ = _ := run_itemChars hmore (by omega) [] item

/-- An object is read back with its members in order. -/
theorem readsBack_object {members : List (String × Json)}
    (hmembers : ∀ m ∈ members, ReadsBack depth m.2.chars m.2) :
    ReadsBack (depth + 1) (Json.object members).chars (.object (arranged members)) := by
  intro stack phase rest hphase hroom _
  have hopen : step { stack, phase } .openObject = some { stack, phase := .member } := by
    rw [step_beginValue hphase stack (by decide)]
    exact if_pos (by omega)
  cases members with
  | nil => exact (run_token rfl rfl hopen).trans (run_token rfl rfl rfl)
  | cons m members =>
      obtain ⟨hm, hmore⟩ := List.forall_mem_cons.mp hmembers
      obtain ⟨key, value⟩ := m
      have hinner : (Frame.object [] key :: stack).length + depth ≤ maxDepth := by
        rw [List.length_cons]
        omega
      simp only [chars, List.cons_append, List.append_assoc, List.nil_append]
      calc _ = run { stack, phase := .member } (stringChars key ++
                ':' :: (value.chars ++ (memberChars members ++ '\x7d' :: rest))) :=
              run_token rfl rfl hopen
        _ = run { stack := .object [] key :: stack, phase := .value }
                (value.chars ++ (memberChars members ++ '\x7d' :: rest)) := run_key rfl
        _ = run { stack := .object [] key :: stack, phase := .after value }
                (memberChars members ++ '\x7d' :: rest) :=
              hm _ _ _ (.inl rfl) hinner (endsNumber_memberChars members rest)
        _ = _ := run_memberChars hmore (by omega) [] key value

end Containers

/-! ## Plain values -/

/-- A value without floats and with the members of every object in order, in which containers nest
at most so deep. -/
inductive Plain : ℕ → Json → Prop
  | null {depth : ℕ} : Plain depth .null
  | bool {depth : ℕ} (value : Bool) : Plain depth (.bool value)
  | integer {depth : ℕ} {i : Int} (h : InRange i) : Plain depth (.number (.integer i))
  | string {depth : ℕ} (text : String) : Plain depth (.string text)
  | array {depth : ℕ} {items : List Json} (h : ∀ item ∈ items, Plain depth item) :
      Plain (depth + 1) (.array items)
  | object {depth : ℕ} {members : List (String × Json)}
      (hkeys : members.Pairwise fun a b => a.1 < b.1) (h : ∀ m ∈ members, Plain depth m.2) :
      Plain (depth + 1) (.object members)

theorem Plain.readsBack {depth : ℕ} {v : Json} (h : Plain depth v) :
    ReadsBack depth v.chars v := by
  induction h with
  | null =>
      intro stack phase rest hphase _ _
      exact run_token rfl rfl (step_beginValue hphase stack (by decide))
  | bool value =>
      intro stack phase rest hphase _ _
      cases value <;> exact run_token rfl rfl (step_beginValue hphase stack (by decide))
  | integer hrange =>
      intro stack phase rest hphase _ hrest
      exact run_integerChars hrange hrest (step_beginValue hphase stack (by simp))
  | string text =>
      intro stack phase rest hphase _ _
      exact run_stringChars (step_beginValue hphase stack (by simp))
  | array _ ih => exact readsBack_array ih
  | object hkeys _ ih =>
      have hread := readsBack_object ih
      rwa [arranged_of_pairwise hkeys] at hread

/-- What is read back anywhere is read back by itself. -/
theorem ReadsBack.parse? {depth : ℕ} {text : List Char} {v : Json} (h : ReadsBack depth text v)
    (hdepth : depth ≤ maxDepth) : parse? (String.ofList text) = some v := by
  have hrun := h [] .value [] (.inl rfl) (by simpa using hdepth) (fun c hc => by cases hc)
  rw [List.append_nil] at hrun
  rw [Json.parse?, String.toList_ofList, initial, hrun, run]
  rfl

/-- A printed plain value is read back. -/
theorem Plain.parse?_print {depth : ℕ} {v : Json} (h : Plain depth v) (hdepth : depth ≤ maxDepth) :
    Json.parse? v.print = some v :=
  h.readsBack.parse? hdepth

/-- An object of plain values is read back with its members in order. -/
theorem parse?_print_object {depth : ℕ} {members : List (String × Json)}
    (h : ∀ m ∈ members, Plain depth m.2) (hdepth : depth < maxDepth) :
    Json.parse? (Json.object members).print = some (.object (arranged members)) :=
  (readsBack_object fun m hm => (h m hm).readsBack).parse? hdepth

end BoundedFormat.Json
