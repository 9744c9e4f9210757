import InteractionGraph.Proofs.Grammar.BookSound

/-!
# Words and tokens

A word of a text is a run of name characters that cannot be made longer on either side.  A token
takes a whole word, because every parser of a name or a number goes on to its end.  So no two tokens
share a word, with one exception: the keyword of a data block is looked for letter by letter, and
the name of the block may follow it at once.

To say this, the text of a book is cut into segments, of which the room between tokens is a part.
The keyword has a segment of its own, unlike in `DerivesBlock.joined`, and so the cut of `dataA{}`
has a break within the word `dataA` (`BookSource.breaksWord_of_isCut`).  Wherever else two segments
meet, there is no name character on one of the two sides (`BookSource.keepsWords_of_read`).
-/

namespace InteractionGraph

namespace Grammar

open Parse Parser Text

/-! ## Segments -/

/-- A piece of the text of a book. -/
inductive Segment where
  /-- A character of white space. -/
  | blank (c : Char)
  /-- A comment, without the line feed that ends it. -/
  | comment (body : List Char)
  /-- The keyword that a data block begins with. -/
  | keyword
  /-- Any other token. -/
  | token (letters : Token)

namespace Segment

/-- The characters of a segment. -/
def letters : Segment → List Char
  | blank c => [c]
  | comment body => '/' :: '/' :: body
  | keyword => Grammar.keyword
  | token letters => letters

/-- Whether a segment is between tokens. -/
def isRoom : Segment → Bool
  | blank _ | comment _ => true
  | keyword | token _ => false

/-- The segment is what it says if the given text follows: white space, a comment up to the end of
its line, or a token, which does not begin like room. -/
def Fits : Segment → List Char → Prop
  | blank c, _ => isBlank c = true
  | comment body, after => '\n' ∉ body ∧ ∀ c ∈ after.head?, c = '\n'
  | keyword, _ => True
  | token letters, after => Fresh (letters ++ after)

end Segment

/-- The characters of some segments, in their order. -/
def lettersOf (segments : List Segment) : List Char := segments.flatMap Segment.letters

@[simp]
theorem lettersOf_nil : lettersOf [] = [] := rfl

@[simp]
theorem lettersOf_cons (segment : Segment) (segments : List Segment) :
    lettersOf (segment :: segments) = segment.letters ++ lettersOf segments := rfl

/-- The segments of a data block, without room. -/
def blockSegments (block : DataBlock) : List Segment :=
  .keyword :: .token block.name.toList :: (constructorsTokens block).map .token

/-- The segments, without room, are a way to write the book. -/
inductive DerivesSegments (blocks : List DataBlock) :
    List (String × Tree) → List Segment → Prop where
  | intro {definitions : List ((String × Tree) × List Token)} :
    (∀ block ∈ blocks, BlockWritable block) →
      (∀ definition ∈ definitions,
        DerivesDefinition (.ofBlocks blocks) definition.1 definition.2) →
      DerivesSegments blocks (definitions.map Prod.fst)
        (blocks.flatMap blockSegments ++ (definitions.flatMap Prod.snd).map .token)

/-- The segments are the text, and their tokens are the book. -/
structure IsCut (blocks : List DataBlock) (definitions : List (String × Tree))
    (segments : List Segment) (text : List Char) : Prop where
  text_eq : lettersOf segments = text
  derives : DerivesSegments blocks definitions (segments.filter fun segment => !segment.isRoom)
  fits : ∀ front segment back, segments = front ++ segment :: back →
    segment.Fits (lettersOf back)

/-! ## Words -/

/-- There is a name character on both sides. -/
def BreaksWord (before after : List Char) : Prop :=
  ∃ c ∈ before.getLast?, ∃ d ∈ after.head?, isNameChar c = true ∧ isNameChar d = true

/-- The name characters are a word, between what is before and after them. -/
structure IsWord (before word after : List Char) : Prop where
  ne_nil : word ≠ []
  letters : ∀ c ∈ word, isNameChar c = true
  starts : ∀ c ∈ before.getLast?, isNameChar c = false
  stops : Stops isNameChar after

/-- The word is within one of the segments, be it a token or a comment. -/
def IsWithin (segments : List Segment) (before word after : List Char) : Prop :=
  ∃ front segment back start stop, segments = front ++ segment :: back ∧
    before = lettersOf front ++ start ∧ segment.letters = start ++ (word ++ stop) ∧
    after = stop ++ lettersOf back

/-- The word is the keyword and the name of one of the blocks. -/
def IsKeywordAndName (blocks : List DataBlock) (segments : List Segment)
    (before word after : List Char) : Prop :=
  ∃ front, ∃ block ∈ blocks, ∃ back,
    segments = front ++ .keyword :: .token block.name.toList :: back ∧
    before = lettersOf front ∧ word = keyword ++ block.name.toList ∧ after = lettersOf back

/-- The segment is the keyword of one of the blocks, and the name of the block comes next. -/
def IsKeywordBreak (blocks : List DataBlock) (segment : Segment) (back : List Segment) : Prop :=
  segment = .keyword ∧ ∃ block ∈ blocks, ∃ more, back = .token block.name.toList :: more

/-- Where a word is broken, the keyword of a block is before the break and the name of the block
behind it.  Every other word is within one segment. -/
structure KeepsWords (blocks : List DataBlock) (segments : List Segment) (text : List Char) :
    Prop where
  breaks : ∀ front segment back, segments = front ++ segment :: back →
    BreaksWord segment.letters (lettersOf back) → IsKeywordBreak blocks segment back
  words : ∀ before word after, text = before ++ (word ++ after) → IsWord before word after →
    IsWithin segments before word after ∨ IsKeywordAndName blocks segments before word after

/-! ## Cutting -/

variable {blocks : List DataBlock} {definitions : List (String × Tree)} {block : DataBlock}
  {segments others : List Segment} {segment : Segment} {tokens : List Token} {token : Token}
  {text middle rest gap after before word : List Char}

/-- The segments are cut off the text one by one, each where it fits, and the rest is left.  A word
is broken only behind the keyword of a block. -/
inductive CutsOff (blocks : List DataBlock) : List Segment → List Char → List Char → Prop where
  | nil {text : List Char} : CutsOff blocks [] text text
  | cons {segment : Segment} {segments : List Segment} {after rest : List Char} :
    segment.Fits after →
      (BreaksWord segment.letters after → IsKeywordBreak blocks segment segments) →
      CutsOff blocks segments after rest →
      CutsOff blocks (segment :: segments) (segment.letters ++ after) rest

theorem CutsOff.text_eq (h : CutsOff blocks segments text rest) :
    text = lettersOf segments ++ rest := by
  induction h with
  | nil => rfl
  | cons _ _ _ ih => rw [ih, lettersOf_cons, List.append_assoc]

theorem CutsOff.append (hfirst : CutsOff blocks segments text middle)
    (hsecond : CutsOff blocks others middle rest) :
    CutsOff blocks (segments ++ others) text rest := by
  induction hfirst with
  | nil => exact hsecond
  | cons hfits hbreaks _ ih =>
    refine .cons hfits (fun hbreak => ?_) (ih hsecond)
    obtain ⟨hkeyword, block, hblock, more, rfl⟩ := hbreaks hbreak
    exact ⟨hkeyword, block, hblock, more ++ others, rfl⟩

/-- What is known of a segment when it is cut off. -/
theorem CutsOff.at_segment {front back : List Segment}
    (h : CutsOff blocks (front ++ segment :: back) text []) :
    segment.Fits (lettersOf back) ∧
      (BreaksWord segment.letters (lettersOf back) → IsKeywordBreak blocks segment back) := by
  induction front generalizing text with
  | nil =>
    cases h with
    | cons hfits hbreaks hothers =>
      have hafter := hothers.text_eq
      rw [List.append_nil] at hafter
      subst hafter
      exact ⟨hfits, hbreaks⟩
  | cons first front ih =>
    cases h with
    | cons _ _ hothers => exact ih hothers

/-- Room is cut into white space and comments. -/
theorem exists_cutsOff_of_room (blocks : List DataBlock) (h : Room gap rest) :
    ∃ segments, CutsOff blocks segments (gap ++ rest) rest ∧
      ∀ segment ∈ segments, segment.isRoom = true := by
  induction h with
  | nil _ => exact ⟨[], .nil, nofun⟩
  | @blank c gap rest hblank _ ih =>
    obtain ⟨segments, hcuts, hroom⟩ := ih
    refine ⟨.blank c :: segments, .cons hblank ?_ hcuts, List.forall_mem_cons.mpr ⟨rfl, hroom⟩⟩
    rintro ⟨d, hd, _, _, hname, -⟩
    obtain rfl : c = d := by simpa [Segment.letters] using hd
    rw [isBlank_of_isNameChar hname] at hblank
    cases hblank
  | @comment body gap rest hbody hline _ ih =>
    obtain ⟨segments, hcuts, hroom⟩ := ih
    have hcons : '/' :: '/' :: (body ++ gap) ++ rest =
        (Segment.comment body).letters ++ (gap ++ rest) := by
      simp [Segment.letters]
    rw [hcons]
    refine ⟨.comment body :: segments, .cons ⟨hbody, hline⟩ ?_ hcuts,
      List.forall_mem_cons.mpr ⟨rfl, hroom⟩⟩
    rintro ⟨_, _, d, hd, -, hname⟩
    rw [hline d hd] at hname
    exact absurd hname (by decide)

theorem Longest.not_breaksWord (h : Longest token after) : ¬ BreaksWord token after := by
  rintro ⟨c, hc, d, hd, hname, hname'⟩
  rw [h.letters c hc hname d hd] at hname'
  cases hname'

theorem filter_of_isRoom (h : ∀ segment ∈ segments, segment.isRoom = true) :
    (segments.filter fun segment => !segment.isRoom) = [] := by
  simpa [List.filter_eq_nil_iff] using h

/-- What is cut off behind room is cut off with the room. -/
theorem CutsOff.exists_of_room (hroom : Room gap after) (h : CutsOff blocks segments after rest) :
    ∃ segments', CutsOff blocks segments' (gap ++ after) rest ∧
      (segments'.filter fun segment => !segment.isRoom) =
        segments.filter fun segment => !segment.isRoom := by
  obtain ⟨space, hcuts, hspace⟩ := exists_cutsOff_of_room blocks hroom
  refine ⟨space ++ segments, hcuts.append h, ?_⟩
  rw [List.filter_append, filter_of_isRoom hspace, List.nil_append]

theorem exists_cutsOff_of_scans (blocks : List DataBlock) (h : Scans tokens text rest) :
    ∃ segments, CutsOff blocks segments text rest ∧
      (segments.filter fun segment => !segment.isRoom) = tokens.map .token := by
  induction h with
  | nil => exact ⟨[], .nil, rfl⟩
  | @cons gap after rest token tokens hroom _ hlongest _ ih =>
    obtain ⟨segments, hcuts, hfilter⟩ := ih
    have htoken : CutsOff blocks (.token token :: segments) (token ++ after) rest :=
      .cons hroom.fresh (fun hbreak => absurd hbreak hlongest.not_breaksWord) hcuts
    obtain ⟨segments', hcuts', hfilter'⟩ := htoken.exists_of_room hroom
    refine ⟨segments', hcuts', hfilter'.trans ?_⟩
    simpa [List.filter_cons, Segment.isRoom] using hfilter

theorem Fresh.of_isNameChar {c : Char} (h : isNameChar c = true) (text : List Char) :
    Fresh (c :: text) := by
  constructor
  · rintro d ⟨⟩
    exact isBlank_of_isNameChar h
  · rw [List.cons_prefix_cons, not_and]
    rintro rfl
    exact absurd h (by decide)

/-- A block is cut into segments as its tokens are.  Where the keyword and the name are one token,
they are two segments. -/
theorem exists_cutsOff_of_block (hblock : block ∈ blocks) (hderives : DerivesBlock block tokens)
    (h : Scans tokens text rest) :
    ∃ segments, CutsOff blocks segments text rest ∧
      (segments.filter fun segment => !segment.isRoom) = blockSegments block := by
  cases hderives with
  | apart _ =>
    cases h with
    | @cons gap after _ _ _ hroom _ hlongest hothers =>
      obtain ⟨segments, hcuts, hfilter⟩ := exists_cutsOff_of_scans blocks hothers
      have hkeyword : CutsOff blocks (.keyword :: segments) (keyword ++ after) rest :=
        .cons trivial (fun hbreak => absurd hbreak hlongest.not_breaksWord) hcuts
      obtain ⟨segments', hcuts', hfilter'⟩ := hkeyword.exists_of_room hroom
      refine ⟨segments', hcuts', hfilter'.trans ?_⟩
      simpa [List.filter_cons, Segment.isRoom, blockSegments] using hfilter
  | joined hwritable =>
    obtain ⟨⟨hne, hletters⟩, -⟩ := hwritable
    obtain ⟨c, cs, hname⟩ := List.exists_cons_of_ne_nil hne
    cases h with
    | @cons gap after _ _ _ hroom _ hlongest hothers =>
      obtain ⟨segments, hcuts, hfilter⟩ := exists_cutsOff_of_scans blocks hothers
      have hfresh : Fresh (block.name.toList ++ after) := by
        rw [hname]
        exact .of_isNameChar (hletters c (by simp [hname])) _
      have hbreak : ¬ BreaksWord block.name.toList after := by
        rintro ⟨d, hd, e, he, hboth⟩
        refine hlongest.not_breaksWord ⟨d, ?_, e, he, hboth⟩
        rw [List.getLast?_append, Option.mem_def.mp hd]
        rfl
      have htoken : CutsOff blocks (.token block.name.toList :: segments)
          (block.name.toList ++ after) rest :=
        .cons hfresh (fun h => absurd h hbreak) hcuts
      have hkeyword : CutsOff blocks (.keyword :: .token block.name.toList :: segments)
          (keyword ++ (block.name.toList ++ after)) rest :=
        .cons trivial (fun _ => ⟨rfl, block, hblock, segments, rfl⟩) htoken
      rw [List.append_assoc] at hroom
      obtain ⟨segments', hcuts', hfilter'⟩ := hkeyword.exists_of_room hroom
      rw [List.append_assoc]
      refine ⟨segments', hcuts', hfilter'.trans ?_⟩
      simpa [List.filter_cons, Segment.isRoom, blockSegments] using hfilter

theorem Scans.exists_of_append {more : List Token} (h : Scans (tokens ++ more) text rest) :
    ∃ middle, Scans tokens text middle ∧ Scans more middle rest := by
  induction tokens generalizing text with
  | nil => exact ⟨text, .nil, h⟩
  | cons token tokens ih =>
    cases h with
    | cons hroom hne hlongest hothers =>
      obtain ⟨middle, htokens, hmore⟩ := ih hothers
      exact ⟨middle, .cons hroom hne hlongest htokens, hmore⟩

theorem exists_cutsOff_of_blocks {written : List (DataBlock × List Token)}
    (hsubset : written.map Prod.fst ⊆ blocks)
    (hwritten : ∀ item ∈ written, DerivesBlock item.1 item.2)
    (h : Scans (written.flatMap Prod.snd) text rest) :
    ∃ segments, CutsOff blocks segments text rest ∧
      (segments.filter fun segment => !segment.isRoom) =
        (written.map Prod.fst).flatMap blockSegments := by
  induction written generalizing text with
  | nil => exact exists_cutsOff_of_scans blocks h
  | cons item written ih =>
    obtain ⟨hfirst, hothers⟩ := List.forall_mem_cons.mp hwritten
    obtain ⟨hmem, hsubset⟩ := List.cons_subset.mp hsubset
    obtain ⟨middle, hscans, hmore⟩ := Scans.exists_of_append h
    obtain ⟨segments, hcuts, hfilter⟩ := exists_cutsOff_of_block hmem hfirst hscans
    obtain ⟨others, hcuts', hfilter'⟩ := ih hsubset hothers hmore
    refine ⟨segments ++ others, hcuts.append hcuts', ?_⟩
    rw [List.filter_append, hfilter, hfilter', List.map_cons, List.flatMap_cons]

/-- A text that is a reading of a book is cut into segments of the book. -/
theorem exists_isCut (h : IsBookReading blocks definitions text) :
    ∃ segments, IsCut blocks definitions segments text ∧ CutsOff blocks segments text [] := by
  obtain ⟨tokens, gap, hderives, hscans, hroom⟩ := h
  cases hderives with
  | @intro written definitions hwritten hdefinitions =>
    obtain ⟨middle, hblocks, hothers⟩ := hscans.exists_of_append
    obtain ⟨first, hcuts, hfilter⟩ :=
      exists_cutsOff_of_blocks (List.Subset.refl _) hwritten hblocks
    obtain ⟨second, hcuts', hfilter'⟩ := exists_cutsOff_of_scans (written.map Prod.fst) hothers
    obtain ⟨space, hspace, hisRoom⟩ := exists_cutsOff_of_room (written.map Prod.fst) hroom
    rw [List.append_nil] at hspace
    have hall := (hcuts.append hcuts').append hspace
    refine ⟨first ++ second ++ space, ⟨?_, ?_, ?_⟩, hall⟩
    · have htext := hall.text_eq
      rw [List.append_nil] at htext
      exact htext.symm
    · rw [List.filter_append, List.filter_append, filter_of_isRoom hisRoom, List.append_nil,
        hfilter, hfilter']
      refine .intro ?_ hdefinitions
      rintro _ hmem
      obtain ⟨item, hitem, rfl⟩ := List.mem_map.mp hmem
      exact (hwritten item hitem).writable
    · intro front segment back hsplit
      rw [hsplit] at hall
      exact hall.at_segment.1

/-! ## Words within segments -/

/-- Every character of the text is in one of the segments. -/
theorem exists_segment {c : Char} (h : lettersOf segments = before ++ c :: after) :
    ∃ front segment back start stop, segments = front ++ segment :: back ∧
      before = lettersOf front ++ start ∧ segment.letters = start ++ c :: stop ∧
      after = stop ++ lettersOf back := by
  induction segments generalizing before with
  | nil => simp [lettersOf] at h
  | cons first segments ih =>
    rw [lettersOf_cons, List.append_eq_append_iff] at h
    rcases h with ⟨between, rfl, hothers⟩ | ⟨between, hletters, hothers⟩
    · obtain ⟨front, segment, back, start, stop, rfl, rfl, hsegment, rfl⟩ := ih hothers
      refine ⟨first :: front, segment, back, start, stop, rfl, ?_, hsegment, rfl⟩
      rw [lettersOf_cons, List.append_assoc]
    · cases between with
      | nil =>
        -- The character is the first one behind this segment.
        have hothers : lettersOf segments = [] ++ c :: after := hothers.symm
        obtain ⟨front, segment, back, start, stop, rfl, hnil, hsegment, rfl⟩ := ih hothers
        refine ⟨first :: front, segment, back, start, stop, rfl, ?_, hsegment, rfl⟩
        rw [lettersOf_cons, List.append_assoc, ← hnil, hletters, List.append_nil, List.append_nil]
      | cons d between =>
        obtain ⟨rfl, hafter⟩ := List.cons_eq_cons.mp hothers
        exact ⟨[], first, segments, before, between, rfl, rfl, hletters, hafter⟩

theorem breaksWord_append {letters : List Char} {d : Char} (hne : letters ≠ [])
    (hletters : ∀ c ∈ letters, isNameChar c = true) (hd : isNameChar d = true) :
    BreaksWord (before ++ letters) (d :: after) := by
  refine ⟨letters.getLast hne, ?_, d, rfl, hletters _ (List.getLast_mem hne), hd⟩
  rw [List.getLast?_append, List.getLast?_eq_some_getLast hne]
  rfl

theorem stops_of_not_breaksWord {letters : List Char} (hne : letters ≠ [])
    (hletters : ∀ c ∈ letters, isNameChar c = true) (h : ¬ BreaksWord letters after) :
    Stops isNameChar after := by
  intro d hd
  refine Bool.eq_false_iff.mpr fun hname => h ?_
  exact ⟨_, List.getLast?_eq_some_getLast hne, d, hd, hletters _ (List.getLast_mem hne), hname⟩

/-- A word that goes on behind the keyword of a block is the keyword and the name of the block. -/
theorem isKeywordAndName_of_break {front more : List Segment} {start stop next : List Char}
    (hbreaks : ∀ front segment back, segments = front ++ segment :: back →
      BreaksWord segment.letters (lettersOf back) → IsKeywordBreak blocks segment back)
    (hblock : block ∈ blocks) (hname : IsName block.name)
    (hsegments : segments = front ++ .keyword :: .token block.name.toList :: more)
    (hword : IsWord (lettersOf front ++ start) (stop ++ next) after)
    (hkeyword : keyword = start ++ stop)
    (hnext : next ++ after = block.name.toList ++ lettersOf more) :
    IsKeywordAndName blocks segments (lettersOf front ++ start) (stop ++ next) after := by
  have hletters : ∀ c ∈ keyword, isNameChar c = true := by decide
  -- The word begins with the keyword, as nothing of it is before the word.
  have hstart : start = [] := by
    by_contra hne
    have hlast := hword.starts (start.getLast hne) (by
      rw [List.getLast?_append, List.getLast?_eq_some_getLast hne]
      rfl)
    rw [hletters _ (by rw [hkeyword]; exact List.mem_append_left _ (List.getLast_mem hne))] at hlast
    cases hlast
  subst hstart
  have hstops : Stops isNameChar (lettersOf more) := by
    refine stops_of_not_breaksWord hname.1 hname.2 fun hbreak => ?_
    obtain ⟨htoken, -⟩ := hbreaks (front ++ [.keyword]) (.token block.name.toList) more
      (by rw [hsegments, List.append_assoc]; rfl) hbreak
    cases htoken
  obtain ⟨rfl, rfl⟩ := eq_of_stops (fun c hc => hword.letters c (List.mem_append_right _ hc))
    hname.2 hword.stops hstops hnext
  exact ⟨front, block, hblock, more, hsegments, List.append_nil _, by rw [hkeyword]; rfl, rfl⟩

/-- Words are kept as far as the segments keep them. -/
theorem IsCut.keepsWords (h : IsCut blocks definitions segments text)
    (hnames : ∀ block ∈ blocks, IsName block.name)
    (hbreaks : ∀ front segment back, segments = front ++ segment :: back →
      BreaksWord segment.letters (lettersOf back) → IsKeywordBreak blocks segment back) :
    KeepsWords blocks segments text := by
  refine ⟨hbreaks, ?_⟩
  intro before word after htext hword
  obtain ⟨c, word, rfl⟩ := List.exists_cons_of_ne_nil hword.ne_nil
  obtain ⟨front, segment, back, start, stop, hsegments, rfl, hletters, hafter⟩ :=
    exists_segment (h.text_eq.trans htext)
  rcases List.append_eq_append_iff.mp hafter with ⟨more, rfl, rfl⟩ | ⟨next, rfl, hnext⟩
  · exact .inl ⟨front, segment, back, start, more, hsegments, rfl, hletters, rfl⟩
  · cases next with
    | nil =>
      refine .inl ⟨front, segment, back, start, [], hsegments, rfl, ?_, ?_⟩
      · simpa using hletters
      · simpa using hnext.symm
    | cons d next =>
      have hbreak : BreaksWord segment.letters (lettersOf back) := by
        rw [hletters, hnext]
        rw [← List.cons_append] at hword
        exact breaksWord_append (List.cons_ne_nil _ _)
          (fun e he => hword.letters e (List.mem_append_left _ he))
          (hword.letters d (List.mem_append_right _ List.mem_cons_self))
      obtain ⟨rfl, block, hblock, more, rfl⟩ := hbreaks front segment back hsegments hbreak
      right
      rw [← List.cons_append] at hword ⊢
      exact isKeywordAndName_of_break hbreaks hblock (hnames block hblock) hsegments hword hletters
        hnext.symm

/-! ## Texts without room -/

theorem Segment.length_letters_pos (h : segment.isRoom = true) : 0 < segment.letters.length := by
  cases segment with
  | blank c => exact Nat.one_pos
  | comment body => exact Nat.succ_pos _
  | keyword | token letters => cases h

theorem length_lettersOf_filter_le (segments : List Segment) :
    (lettersOf (segments.filter fun segment => !segment.isRoom)).length +
      (segments.filter Segment.isRoom).length ≤ (lettersOf segments).length := by
  induction segments with
  | nil => simp
  | cons segment segments ih =>
    cases hroom : segment.isRoom with
    | false =>
      simp only [List.filter_cons, hroom, lettersOf_cons, List.length_append, Bool.not_false,
        Bool.false_eq_true, if_true, if_false]
      omega
    | true =>
      have hpos := Segment.length_letters_pos hroom
      simp only [List.filter_cons, hroom, lettersOf_cons, List.length_append, List.length_cons,
        Bool.not_true, Bool.false_eq_true, if_true, if_false]
      omega

/-- Tokens that take the whole text leave no room. -/
theorem filter_eq_self_of_length
    (h : (lettersOf segments).length =
      (lettersOf (segments.filter fun segment => !segment.isRoom)).length) :
    (segments.filter fun segment => !segment.isRoom) = segments := by
  have hle := length_lettersOf_filter_le segments
  have hnil : segments.filter Segment.isRoom = [] := by
    rw [← List.length_eq_zero_iff]
    omega
  simpa [List.filter_eq_nil_iff, List.filter_eq_self] using hnil

theorem DerivesSegments.eq_of_nil (h : DerivesSegments blocks [] segments) :
    segments = blocks.flatMap blockSegments := by
  generalize hnil : ([] : List (String × Tree)) = definitions at h
  cases h with
  | intro _ _ =>
    obtain rfl := List.map_eq_nil_iff.mp hnil.symm
    simp

/-- A block that has no constructors, in as few characters as possible. -/
theorem isBookSpelling_joined : IsBookSpelling [⟨"A", []⟩] [] "dataA{}".toList := by
  have hblock : DerivesBlock ⟨"A", []⟩ [['d', 'a', 't', 'a', 'A'], ['{'], ['}']] :=
    .joined ⟨⟨by decide, by decide⟩, nofun⟩
  have hblocks : ∀ block ∈ [((_ : DataBlock), (_ : List Token))], DerivesBlock block.1 block.2 :=
    List.forall_mem_singleton.mpr hblock
  have hdefinitions : ∀ definition ∈ ([] : List ((String × Tree) × List Token)),
      DerivesDefinition (.ofBlocks [⟨"A", []⟩]) definition.1 definition.2 := nofun
  exact ⟨_, .intro hblocks hdefinitions,
    .cons .nil (by decide) (.cons .nil (by decide) (.cons .nil (by decide) (.nil .nil)))⟩

end Grammar

open Grammar

namespace BookSource

/-- The text of a book that is read is cut into segments of this book in such a way that no word is
broken but between the keyword and the name of a data block, where there may be no room.  Then the
word consists of these two, and every other word is within one token, or within a comment. -/
theorem keepsWords_of_read {text : String} {source : BookSource}
    (h : BookSource.read text = .ok source) :
    ∃ segments, IsCut source.blocks source.definitions segments text.toList ∧
      KeepsWords source.blocks segments text.toList := by
  obtain ⟨-, hreading⟩ := isReading_of_read h
  obtain ⟨segments, hcut, hcuts⟩ := exists_isCut hreading
  refine ⟨segments, hcut, hcut.keepsWords ?_ ?_⟩
  · obtain ⟨_, _, hderives, -⟩ := hreading
    exact fun block hblock => (hderives.writable.1 block hblock).1
  · rintro front segment back rfl
    exact hcuts.at_segment.2

/-- The break between the keyword and the name. -/
theorem keepsWords_of_read_joined :
    BookSource.read "dataA{}" = .ok ⟨[⟨"A", []⟩], [], .ofBlocks [⟨"A", []⟩]⟩ ∧
      ∃ segments, IsCut [⟨"A", []⟩] [] segments "dataA{}".toList ∧
        KeepsWords [⟨"A", []⟩] segments "dataA{}".toList :=
  ⟨read_of_isBookSpelling isBookSpelling_joined,
    keepsWords_of_read (read_of_isBookSpelling isBookSpelling_joined)⟩

/-- A word may be broken: `dataA{}` is read, and however it is cut, there is a break in `dataA`. -/
theorem breaksWord_of_isCut :
    ∃ source, BookSource.read "dataA{}" = .ok source ∧
      ∀ segments, IsCut source.blocks source.definitions segments "dataA{}".toList →
        ∃ front segment back, segments = front ++ segment :: back ∧
          BreaksWord segment.letters (lettersOf back) := by
  refine ⟨_, read_of_isBookSpelling isBookSpelling_joined, fun segments hcut => ?_⟩
  have htokens := hcut.derives.eq_of_nil
  have hlength : (lettersOf segments).length =
      (lettersOf (segments.filter fun segment => !segment.isRoom)).length := by
    rw [hcut.text_eq, htokens]
    decide
  rw [filter_eq_self_of_length hlength] at htokens
  exact ⟨[], .keyword, [.token ['A'], .token ['{'], .token ['}']], htokens,
    'a', rfl, 'A', rfl, by decide, by decide⟩

end BookSource

end InteractionGraph
