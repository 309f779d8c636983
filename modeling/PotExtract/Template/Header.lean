import PotExtract.Calendar.Timestamp
import PotExtract.Call.Function
import PotExtract.Template.Field

/-!
# The header of a template

A template opens with two comment lines and an entry with no text, whose
translation lists named values.

* `Header.metadata`: the names and values, in order;
* `isReserved`: the names that a template always gives itself.
-/

namespace PotExtract.Template

/-- What a header lists. -/
inductive HeaderFields where
  /-- Only what every template has. -/
  | core
  /-- Also what translation editors read, and further names with their values. -/
  | full (custom : List (String × String))
  deriving DecidableEq, Repr

/-- What a project says of itself in the header. -/
structure Header where
  package : String := "unnamed project"
  /-- Where to report errors in the texts. -/
  bugReport : String := "http://example.com"
  lastTranslator : String := "FULL NAME <EMAIL@ADDRESS>"
  team : String := "LANGUAGE <EMAIL@ADDRESS>"
  fields : HeaderFields := .full []
  deriving DecidableEq, Repr

/-- The names that a template gives itself. -/
def reservedNames : List String := [
  "Project-Id-Version",
  "Report-Msgid-Bugs-To",
  "POT-Creation-Date",
  "PO-Revision-Date",
  "Last-Translator",
  "Language-Team",
  "MIME-Version",
  "Content-Type",
  "Content-Transfer-Encoding",
  "X-Poedit-Basepath",
  "X-Poedit-SourceCharset",
  "X-Poedit-KeywordsList",
  "X-Poedit-SearchPath-0",
  "X-Textdomain-Support"]

/-- A name with the letters of ASCII in lower case. -/
def foldCase (name : String) : List Char :=
  name.toList.map Char.toLower

/-- A name that a template gives itself, in any case. -/
def isReserved (name : String) : Bool :=
  reservedNames.any fun reserved => foldCase reserved == foldCase name

namespace Header

/-- The comment lines before the header's entry. -/
def preamble (h : Header) (date : Timestamp) : List String := [
  "# Copyright (C) " ++ toString date.date.year ++ " " ++ h.package,
  "# This file is distributed under the same license as the " ++ h.package ++ " package."]

/-- The names and values of every template. -/
def coreFields (h : Header) (date : Timestamp) : List (String × String) := [
  ("Project-Id-Version", h.package),
  ("Report-Msgid-Bugs-To", h.bugReport),
  ("POT-Creation-Date", date.text),
  ("PO-Revision-Date", "YEAR-MO-DA HO:MI+ZONE"),
  ("Last-Translator", h.lastTranslator),
  ("Language-Team", h.team),
  ("MIME-Version", "1.0"),
  ("Content-Type", "text/plain; charset=UTF-8"),
  ("Content-Transfer-Encoding", "8bit")]

/-- The names and values for translation editors. -/
def editorFields : List (String × String) := [
  ("X-Poedit-Basepath", ".."),
  ("X-Poedit-SourceCharset", "UTF-8"),
  ("X-Poedit-KeywordsList", keywordList),
  ("X-Poedit-SearchPath-0", "."),
  ("X-Textdomain-Support", "yes")]

/-- The names and values of a header. A custom name that is reserved is left out. -/
def metadata (h : Header) (date : Timestamp) : List (String × String) :=
  match h.fields with
  | .core => h.coreFields date
  | .full custom =>
    h.coreFields date ++ editorFields ++ custom.filter fun field => !isReserved field.1

/-- A name and value as a line of the header's translation. -/
def fieldLine (field : String × String) : String :=
  "\"" ++ escape field.1 ++ ": " ++ escape field.2 ++ "\\n\""

/-- The lines of a header. -/
def lines (h : Header) (date : Timestamp) : List String :=
  h.preamble date ++ ["msgid " ++ quote "", "msgstr " ++ quote ""] ++
    (h.metadata date).map fieldLine

end Header

end PotExtract.Template
