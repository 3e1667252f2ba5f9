import Cartridge.Nca.Archive
import Cartridge.Xci.Image

/-!
# Containers

A container is a view taken for one of the formats. What all of them can do is to tell whether they
look right, to read their tables, and to list and open what they hold by name.
-/

namespace Cartridge

/-- A container of any format. -/
inductive Container where
  | pfs0 (archive : Partition.Archive .plain)
  | hfs0 (archive : Partition.Archive .hashed)
  | romFs (image : RomFs.Image)
  | nca (archive : Nca.Archive)
  | xci (image : Xci.Image)

namespace Container

/-- The container's format. -/
def format : Container → Format
  | pfs0 _ => .pfs0
  | hfs0 _ => .hfs0
  | romFs _ => .romFs
  | nca _ => .nca
  | xci _ => .xci

/-- A view taken for the given format; nothing has been read. -/
def ofView (format : Format) (view : View) : Container :=
  match format with
  | .pfs0 => pfs0 (.ofView view)
  | .hfs0 => hfs0 (.ofView view)
  | .romFs => romFs (.ofView view)
  | .nca => nca (.ofView view)
  | .xci => xci (.ofView view)

/-- The container that a view holds. -/
def openDetected (view : View) (media : Media) (keys : KeyStore) : Traced Container := do
  match ← Format.detect view.region media keys with
  | some format => return ofView format view
  | none => Traced.fail .unrecognizedFormat

/-- Whether the container looks right. -/
def isValid (media : Media) (keys : KeyStore) : Access Container Bool
  | pfs0 a => (pure (a.isValid media), pfs0 a)
  | hfs0 a => (pure (a.isValid media), hfs0 a)
  | romFs i => (pure (i.isValid media), romFs i)
  | xci i => (pure (i.isValid media), xci i)
  | nca a =>
    let (answer, a') := Nca.Archive.isValid media keys a
    (answer, nca a')

/-- Reads the container's tables if that has not been done. -/
def parse (media : Media) (keys : KeyStore) : Access Container Unit
  | pfs0 a => (Partition.Archive.parse media a).map id pfs0
  | hfs0 a => (Partition.Archive.parse media a).map id hfs0
  | romFs i => (RomFs.Image.parse media i).map id romFs
  | xci i => (Xci.Image.parse media i).map id xci
  | nca a => (Nca.Archive.parse media keys a).map id nca

/-- The names of what the container holds. -/
def listFiles (media : Media) (keys : KeyStore) : Access Container (List String)
  | pfs0 a => (Partition.Archive.listFiles media a).map id pfs0
  | hfs0 a => (Partition.Archive.listFiles media a).map id hfs0
  | romFs i => (RomFs.Image.listFiles media i).map id romFs
  | xci i => (Xci.Image.listFiles media i).map id xci
  | nca a => (Nca.Archive.listFiles media keys a).map id nca

/-- What the container holds under a name. -/
def openFile (media : Media) (keys : KeyStore) (name : String) : Access Container View
  | pfs0 a => (Partition.Archive.openFile media name a).map id pfs0
  | hfs0 a => (Partition.Archive.openFile media name a).map id hfs0
  | romFs i => (RomFs.Image.openFile media name i).map id romFs
  | xci i => (Xci.Image.openFile media name i).map id xci
  | nca a => (Nca.Archive.openFile media keys name a).map id nca

end Container

end Cartridge
