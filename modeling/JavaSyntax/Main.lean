import JavaSyntax.CommandLine

/-!
The program: the command line on the real disk.
-/

namespace JavaSyntax

def readFile (path : String) : IO (Except ReadError String) := do
  try
    let place ← IO.FS.realPath path
    if ← place.isDir then return .error .isDirectory
    return decodeText (← IO.FS.readBinFile place)
  catch _ => return .error .notFound

partial def listFiles (path : String) : IO (List String) := do
  try
    let place ← IO.FS.realPath path
    if ← place.isDir then
      let entries ← place.readDir
      let below ← entries.toList.mapM fun entry => listFiles (Path.join path entry.fileName)
      return below.flatten
    else return [path]
  catch _ => return []

end JavaSyntax

open JavaSyntax in
def main (args : List String) : IO UInt32 := do
  let names := ["JAVAPARSE_NO_RECOVERY", "JAVAPARSE_DROP_DOC_COMMENTS", "JAVAPARSE_NO_DEPRECATION",
    "JAVAPARSE_MAX_ERRORS"]
  let values ← names.mapM fun name => return (name, ← IO.getEnv name)
  let output ← commandLine ⟨readFile, listFiles⟩ (fun name => (values.lookup name).join) args
  IO.print output.out
  IO.eprint output.err
  return output.code.toUInt32
